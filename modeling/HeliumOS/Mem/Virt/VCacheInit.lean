import HeliumOS.Mem.PhysCalls
import HeliumOS.Mem.Virt.Sessions
import Mathlib.Tactic.FinCases

/-!
# Initialisation of the Virtual Cache

`vcache::init` and `mapper::init`.  They run while the identity mapping is still in place, and
reach the page tables at their physical addresses.

Four P1 tables are allocated one by one and stored in the P2 table.  The windows onto them are
mapped as if they were in consecutive frames.  Whether they are depends on the frames that
`palloc` returns.

- `VCache.init_spec` says what the initialisation leaves behind.
- `vcache_wired_iff` is the condition under which every window shows the table it is meant to.
- `inv_of_init`: under this condition the mapper starts with its invariant.
-/

namespace HeliumOS.Mem

/-! ## The frames of the allocator -/

namespace PhysicalFrameAllocator

/-- The frames that the next calls of `palloc` return, up to `n` of them. -/
def nextFrames : ℕ → PhysicalFrameAllocator → List PhysFrame
  | 0, _ => []
  | n + 1, a =>
    match a.allocateFrame with
    | .ok (some f, a') => f :: nextFrames n a'
    | _ => []

/-- Calls of `palloc` lead from `a` to `a'` and return `fs`. -/
def Hands (a : PhysicalFrameAllocator) (fs : List PhysFrame) (a' : PhysicalFrameAllocator) : Prop :=
  ∀ n, nextFrames (fs.length + n) a = fs ++ nextFrames n a'

variable {a a' a'' : PhysicalFrameAllocator} {f : PhysFrame} {fs fs' : List PhysFrame}

theorem Hands.nil (a : PhysicalFrameAllocator) : a.Hands [] a := by
  intro n
  rw [List.length_nil, Nat.zero_add, List.nil_append]

theorem Hands.single (h : a.allocateFrame = .ok (some f, a')) : a.Hands [f] a' := by
  intro n
  rw [List.length_singleton, Nat.add_comm, nextFrames, h]
  rfl

theorem Hands.append (h : a.Hands fs a') (h' : a'.Hands fs' a'') : a.Hands (fs ++ fs') a'' := by
  intro n
  rw [List.length_append, Nat.add_assoc, h, h', List.append_assoc]

theorem Hands.nextFrames_eq (h : a.Hands fs a') : nextFrames fs.length a = fs := by
  have h₀ := h 0
  rwa [Nat.add_zero, nextFrames, List.append_nil] at h₀

/-- As long as frames are left, `palloc` returns the next one. -/
theorem allocateFrame_of_nextFrames {n : ℕ} (h : (nextFrames (n + 1) a).length = n + 1) :
    ∃ f a', a.allocateFrame = .ok (some f, a') ∧ (nextFrames n a').length = n := by
  unfold nextFrames at h
  split at h
  · next f a' halloc =>
    rw [List.length_cons] at h
    exact ⟨f, a', halloc, Nat.succ.inj h⟩
  · cases h

end PhysicalFrameAllocator

end HeliumOS.Mem

namespace HeliumOS.Mem.Virt

open HeliumOS.Lib HeliumOS.Lib.AllocProg HeliumOS.Lib.Radix

/-! ## The two functions -/

theorem groups_le : 4 ≤ 512 := by decide

section Functions

-- the first group and the first entry are written `0`
local instance groups_neZero : NeZero 4 := ⟨by decide⟩
local instance entries_neZero : NeZero 512 := ⟨by decide⟩

/-- The page at which the identity mapping shows a frame: the physical address as a pointer. -/
def identityPage (f : PhysFrame) : Except Panic Page :=
  if h : f.num < 2 ^ 35 then .ok ⟨f.num, PhysFrame.canonical_of_low h⟩ else .error .virtAddrInvalid

theorem identityPage_eq_ok {f : PhysFrame} {page : Page} (h : identityPage f = .ok page) :
    f.num < 2 ^ 35 ∧ page.num = f.num := by
  unfold identityPage at h
  split_ifs at h with hlt
  cases h
  exact ⟨hlt, rfl⟩

/-- The flags of the tables above the windows. -/
def initFlags : PageTableFlags := .WRITABLE ||| .PRESENT

/-- `if entry.is_unused() { alloc_substruct(entry, .., true) }`, for an entry of the table in the
given frame. -/
def initEntry (vm : Vm) (table : PhysFrame) (i : Fin 512) : Kernel Vm := do
  let page ← identityPage table
  let word ← vm.read page i
  if word.isUnused then do
    let (_, vm) ← allocSubstruct vm ⟨page, i⟩ initFlags true
    return vm
  else return vm

/-- `entry.frame().unwrap()`. -/
def entryFrame (vm : Vm) (table : PhysFrame) (i : Fin 512) : Except Panic PhysFrame := do
  let page ← identityPage table
  let word ← vm.read page i
  unwrap .entryFrame word.frame

/-- The loop that allocates the P1 tables. -/
def initTables (vm : Vm) (p2 : PhysFrame) : List (Fin 4) → Kernel Vm
  | [] => return vm
  | i :: is => do
    let page ← identityPage p2
    let word ← vm.read page (i.castLE groups_le)
    ensure Panic.vcacheInitEntries word.isUnused
    let (_, vm) ← allocSubstruct vm ⟨page, i.castLE groups_le⟩ initFlags true
    initTables vm p2 is

/-- The frame behind a window, as the processor finds it. -/
def Vm.shown (vm : Vm) (i : Fin 4) : PhysFrame :=
  ((vm.translate (slotPage 0 (i.castLE groups_le))).map Translation.frame).getD nullFrame

/-- `VCache::renew` with the slice of four tables at `START_ADDR`, that is, behind the first four
windows.  The old cache is written back to the first table. -/
def Vm.renew (vm : Vm) (first : PhysFrame) (vc : VCache) : Vm :=
  let vm := { vm with mem := Function.update vm.mem first (vc.p1 0) }
  { vm with p1 := vm.shown, vcacheState := vc.state }

/-- `vcache::init`.  At first the cache is a slice of one table, which is all that the first four
calls of `map` use. -/
def VCache.init (vm : Vm) : Kernel Vm := do
  let vm ← initEntry vm vm.cr3 kvmspace.p4Index
  let p3 ← entryFrame vm vm.cr3 kvmspace.p4Index
  let vm ← initEntry vm p3 kvmspace.p3Index
  let p2 ← entryFrame vm p3 kvmspace.p3Index
  let vm ← initTables vm p2 (List.finRange 4)
  let p1Frame ← entryFrame vm p2 0
  let page ← identityPage p1Frame
  let first ← vm.frameOf page
  let vc ← initWindows p1Frame 4 0 ⟨fun i => if i = 0 then vm.mem first else fun _ => 0, .new⟩
  return vm.renew first vc

/-- `mapper::init`. -/
def KernelMapper.init (vm : Vm) : Except Panic Vm := do
  let (page, vc) ← vm.vcache.map vm.cr3
  let page ← unwrap .mapperInit page
  .ok { vm.withVCache vc with p4table := page }

end Functions

/-! ## The identity mapping -/

/-- The identity mapping shows the frame at its own address. -/
def Vm.Direct (vm : Vm) (f : PhysFrame) : Prop :=
  ∃ page, identityPage f = .ok page ∧ vm.frameOf page = .ok f

/-- The state of virtual memory while the identity mapping is in place: the tables form a tree, no
free frame is a table, and what is mapped in the lower half is mapped to its own address. -/
structure Booting (vm : Vm) (F : Set PhysFrame) : Prop where
  tree : IsTree PageTableEntry.frame vm.mem vm.cr3 3
  fresh : Disjoint F vm.tables
  identity : ∀ f page g, identityPage f = .ok page → vm.frameOf page = .ok g → g = f

/-- Tables were added, and nothing else has changed for the processor. -/
structure Extends (vm vm' : Vm) : Prop where
  cr3 : vm'.cr3 = vm.cr3
  walk : ∀ p f, p.length ≤ 3 → vm.walk p = some f → vm'.walk p = some f
  translate : ∀ q, vm'.translate q = vm.translate q
  leaf : ∀ p f, p.length = 3 → vm.walk p = some f → vm'.mem f = vm.mem f

theorem Extends.refl (vm : Vm) : Extends vm vm :=
  ⟨rfl, fun _ _ _ h => h, fun _ => rfl, fun _ _ _ _ => rfl⟩

theorem Extends.trans {vm vm' vm'' : Vm} (h : Extends vm vm') (h' : Extends vm' vm'') :
    Extends vm vm'' where
  cr3 := h'.cr3.trans h.cr3
  walk p f hp hw := h'.walk p f hp (h.walk p f hp hw)
  translate q := (h'.translate q).trans (h.translate q)
  leaf p f hp hw := (h'.leaf p f hp (h.walk p f hp.le hw)).trans (h.leaf p f hp hw)

theorem Extends.frameOf {vm vm' : Vm} (h : Extends vm vm') (page : Page) :
    vm'.frameOf page = vm.frameOf page := by
  rw [Vm.frameOf, Vm.frameOf, h.translate]

theorem Extends.direct_iff {vm vm' : Vm} (h : Extends vm vm') (f : PhysFrame) :
    vm'.Direct f ↔ vm.Direct f := by
  simp only [Vm.Direct, h.frameOf]

section Steps

variable {vm vm' : Vm} {F : Set PhysFrame} {p : List (Fin 512)} {f g : PhysFrame} {i : Fin 512}
  {page : Page}

/-- Reading an entry at a physical address. -/
theorem Booting.read_eq_ok (hb : Booting vm F) (hpage : identityPage f = .ok page)
    {w : PageTableEntry} : vm.read page i = .ok w ↔ vm.Direct f ∧ w = vm.mem f i := by
  simp only [Vm.read, except_bind_eq_ok, Except.ok.injEq]
  constructor
  · rintro ⟨g, hg, rfl⟩
    obtain rfl := hb.identity f page g hpage hg
    exact ⟨⟨page, hpage, hg⟩, rfl⟩
  · rintro ⟨⟨page', hpage', hf⟩, rfl⟩
    obtain rfl : page = page' := Except.ok.inj (hpage.symm.trans hpage')
    exact ⟨f, hf, rfl⟩

theorem clearInplace_eq (vm : Vm) (g : PhysFrame) :
    vm.clearInplace g = identityPage g >>= vm.clear := by
  unfold Vm.clearInplace identityPage
  split_ifs <;> rfl

/-- Clearing a frame that is no table changes nothing for the processor. -/
theorem Vm.translate_clearFrame (hg : g ∉ vm.tables) (q : Page) :
    (vm.clearFrame g).translate q = vm.translate q := by
  have hne : ∀ p f, p.length ≤ 3 → vm.walk p = some f → (vm.clearFrame g).mem f = vm.mem f := by
    intro p f hp hw
    refine Store.fill_of_ne vm.mem 0 ?_
    rintro rfl
    exact hg ⟨p, hp, hw⟩
  have hagree : AgreeAbove PageTableEntry.frame vm.mem (vm.clearFrame g).mem vm.cr3 3 :=
    fun p f hp hw => hne p f hp.le hw
  refine congrArg resolve (hagree.stop_eq q.path_length fun t hw => ?_)
  exact congrFun (hne _ t q.path_length.le hw) _

/-- The situation in which a table is added. -/
structure Site (vm : Vm) (p : List (Fin 512)) (f : PhysFrame) (i : Fin 512) : Prop where
  depth : p.length < 3
  at_path : vm.walk p = some f
  unused : vm.mem f i = 0

theorem initFlags_spec :
    initFlags.contains .PRESENT = true ∧ initFlags.contains .HUGE_PAGE = false := by decide

/-- The entry that leads to a new table. -/
def tableEntry (g : PhysFrame) : PageTableEntry := .ofFrame g initFlags

theorem Site.link (hsite : Site vm p f i) (hg : g ∉ vm.tables) :
    LinkSite PageTableEntry.frame vm.mem vm.cr3 3 p f i (tableEntry g) g 0 where
  depth := hsite.depth
  at_path := hsite.at_path
  unused := by rw [hsite.unused, PageTableEntry.frame_zero]
  fresh := hg
  points := PageTableEntry.frame_ofFrame g initFlags_spec.1 initFlags_spec.2
  empty := PageTableEntry.frame_zero

theorem Site.extends (hb : Booting vm F) (hsite : Site vm p f i) (hg : g ∉ vm.tables) :
    Extends vm (vm.linkTable f i (tableEntry g) g) where
  cr3 := rfl
  walk p' f' hp' hw := (hsite.link hg).walk_of_walk hp' hw
  translate q := Vm.translate_linkTable hb.tree (hsite.link hg) hsite.unused q
  leaf p' t hp' hw := by
    have hne : t ≠ f := hb.tree.ne_of_length_ne hp'.le hsite.depth.le hw hsite.at_path (by
      have := hsite.depth
      omega)
    funext k
    simp only [Vm.linkTable]
    rw [link_apply_of_ne ((hsite.link hg).ne_fresh hp'.le hw), if_neg fun h => hne h.1]

/-- Once a new table is cleared, storing zero in the entry does nothing, and storing the frame
links the table. -/
theorem Site.write_eq (hsite : Site vm p f i) (hf : vm.frameOf page = .ok f)
    (hg : g ∉ vm.tables) :
    (vm.clearFrame g).write page i 0 = .ok (vm.clearFrame g) ∧
      (vm.clearFrame g).write page i (tableEntry g) =
        .ok (vm.linkTable f i (tableEntry g) g) := by
  have hclear : (vm.clearFrame g).frameOf page = .ok f := by
    rwa [Vm.frameOf, Vm.translate_clearFrame hg, ← Vm.frameOf]
  have hne : f ≠ g := (hsite.link hg).ne_fresh hsite.depth.le hsite.at_path
  have hword : (vm.clearFrame g).mem f i = 0 := by
    simp only [Vm.clearFrame]
    rw [Store.fill_of_ne _ _ hne, hsite.unused]
  simp only [Vm.write, hclear, except_ok_bind, Except.ok.injEq]
  constructor
  · simp only [Vm.setEntry]
    rw [← hword, Store.set_eq_self]
  · simp only [Vm.setEntry, Vm.clearFrame, Vm.linkTable, Radix.link, Store.set_fill _ _ _ _ hne]

/-- What one call of `alloc_substruct` leaves behind. -/
structure Links (vm vm' : Vm) (pmm pmm' : PhysicalFrameAllocator) (p : List (Fin 512))
    (i : Fin 512) (g : PhysFrame) : Prop where
  alloc : pmm.allocateFrame = .ok (some g, pmm')
  sound : pmm'.Sound
  booting : Booting vm' pmm'.free
  ext : Extends vm vm'
  walk : vm'.walk (p ++ [i]) = some g
  cleared : vm'.mem g = fun _ => 0

variable {pmm pmm' : PhysicalFrameAllocator}

theorem Site.links (hb : Booting vm pmm.free) (hs : pmm.Sound) (hsite : Site vm p f i)
    (halloc : pmm.allocateFrame = .ok (some g, pmm')) :
    Links vm (vm.linkTable f i (tableEntry g) g) pmm pmm' p i g := by
  obtain ⟨hfree, hsound, hfree', -⟩ := PhysicalFrameAllocator.allocateFrame_some hs halloc
  have hg : g ∉ vm.tables := Set.disjoint_left.mp hb.fresh hfree
  have hext := hsite.extends hb hg
  refine ⟨halloc, hsound, ⟨(hsite.link hg).isTree hb.tree, ?_, fun f' page' g' hpage' hg' => ?_⟩,
    hext, (hsite.link hg).walk_fresh, ?_⟩
  · have htables : (vm.linkTable f i (tableEntry g) g).tables = insert g vm.tables :=
      (hsite.link hg).tables_eq hb.tree
    rw [htables, hfree', Set.disjoint_insert_right]
    exact ⟨fun h => h.2 rfl, hb.fresh.mono_left Set.sdiff_subset⟩
  · rw [hext.frameOf] at hg'
    exact hb.identity f' page' g' hpage' hg'
  · funext k
    exact Store.fill_self _ _ _ _

/-- `alloc_substruct` at physical addresses. It returns exactly when a frame is left and the
identity mapping shows it, and then it has linked that frame. -/
theorem allocSubstruct_run (hb : Booting vm pmm.free) (hs : pmm.Sound) (hsite : Site vm p f i)
    (hf : vm.frameOf page = .ok f) :
    (allocSubstruct vm ⟨page, i⟩ initFlags true).run PhysicalFrameAllocator.pool pmm =
        .ok ((g, vm'), pmm') ↔
      pmm.allocateFrame = .ok (some g, pmm') ∧ vm.Direct g ∧
        vm' = vm.linkTable f i (tableEntry g) g := by
  have hset : PageTableEntry.setFrame g initFlags = .ok (tableEntry g) :=
    PageTableEntry.setFrame_eq_ok.mpr ⟨initFlags_spec.2, rfl⟩
  have hfresh : ∀ g' pmm₁, pmm.allocateFrame = .ok (some g', pmm₁) → g' ∉ vm.tables :=
    fun g' pmm₁ halloc => Set.disjoint_left.mp hb.fresh
      (PhysicalFrameAllocator.allocateFrame_some hs halloc).1
  simp only [allocSubstruct, run_bind, run_get, except_bind_eq_ok, Prod.exists]
  constructor
  · rintro ⟨frame, pmm₁, halloc, h⟩
    cases frame with
    | none => cases h
    | some g' =>
      simp only [if_true, run_lift_bind_eq_ok, run_pure, except_bind_eq_ok, Except.ok.injEq,
        clearInplace_eq, Vm.clear, Prod.mk.injEq] at h
      obtain ⟨_, ⟨page', hpage', f', hf', rfl⟩, _, hz, _, hw, _, hl, ⟨rfl, rfl⟩, rfl⟩ := h
      -- what was cleared is the new frame, and the stores are those of the lemma
      obtain rfl := hb.identity g' page' f' hpage' hf'
      obtain ⟨hzero, hlink⟩ := hsite.write_eq hf (hfresh f' pmm₁ halloc)
      cases hzero.symm.trans hz
      cases hset.symm.trans hw
      cases hlink.symm.trans hl
      exact ⟨halloc, ⟨page', hpage', hf'⟩, rfl⟩
  · rintro ⟨halloc, ⟨page', hpage', hf'⟩, rfl⟩
    obtain ⟨hzero, hlink⟩ := hsite.write_eq hf (hfresh g pmm' halloc)
    refine ⟨some g, pmm', halloc, ?_⟩
    simp only [if_true, clearInplace_eq, hpage', Vm.clear, hf', except_ok_bind, liftM_ok,
      mk_pure_bind, hzero, hset, hlink, run_pure]

/-- The frame in an entry, read at the physical address of its table. -/
theorem Booting.entryFrame_eq_ok (hb : Booting vm F) :
    entryFrame vm f i = .ok g ↔ vm.Direct f ∧ (vm.mem f i).frame = some g := by
  simp only [entryFrame, except_bind_eq_ok, unwrap_eq_ok]
  constructor
  · rintro ⟨page, hpage, word, hread, hframe⟩
    obtain ⟨hdirect, rfl⟩ := (hb.read_eq_ok hpage).mp hread
    exact ⟨hdirect, hframe⟩
  · rintro ⟨hdirect, hframe⟩
    obtain ⟨page, hpage, -⟩ := id hdirect
    exact ⟨page, hpage, _, (hb.read_eq_ok hpage).mpr ⟨hdirect, rfl⟩, hframe⟩

/-- A table is added behind an unused entry, and any other entry is left as it is. -/
theorem initEntry_cases (hb : Booting vm pmm.free) (hs : pmm.Sound) (hp : p.length < 3)
    (hw : vm.walk p = some f)
    (h : (initEntry vm f i).run PhysicalFrameAllocator.pool pmm = .ok (vm', pmm')) :
    (vm.mem f i ≠ 0 ∧ vm' = vm ∧ pmm' = pmm) ∨
      (vm.mem f i = 0 ∧ ∃ g, Links vm vm' pmm pmm' p i g) := by
  simp only [initEntry, run_lift_bind_eq_ok] at h
  obtain ⟨page, hpage, word, hread, h⟩ := h
  obtain ⟨⟨page', hpage', hf⟩, rfl⟩ := (hb.read_eq_ok hpage).mp hread
  obtain rfl : page = page' := Except.ok.inj (hpage.symm.trans hpage')
  simp only [PageTableEntry.isUnused, beq_iff_eq] at h
  split_ifs at h with hunused
  · have hsite : Site vm p f i := ⟨hp, hw, hunused⟩
    simp only [run_bind_eq_ok, run_pure, Except.ok.injEq, Prod.mk.injEq] at h
    obtain ⟨⟨g, vm₁⟩, pmm₁, hrun, rfl, rfl⟩ := h
    obtain ⟨halloc, -, rfl⟩ := (allocSubstruct_run hb hs hsite hf).mp hrun
    exact .inr ⟨hunused, g, hsite.links hb hs halloc⟩
  · simp only [run_pure, Except.ok.injEq, Prod.mk.injEq] at h
    exact .inl ⟨hunused, h.1.symm, h.2.symm⟩

theorem initEntry_of_unused (hb : Booting vm pmm.free) (hs : pmm.Sound) (hsite : Site vm p f i)
    (hf : vm.Direct f) (hg : vm.Direct g) (halloc : pmm.allocateFrame = .ok (some g, pmm')) :
    (initEntry vm f i).run PhysicalFrameAllocator.pool pmm =
      .ok (vm.linkTable f i (tableEntry g) g, pmm') := by
  obtain ⟨page, hpage, hframe⟩ := hf
  have hread := (hb.read_eq_ok (i := i) hpage).mpr ⟨⟨page, hpage, hframe⟩, rfl⟩
  have hrun := (allocSubstruct_run hb hs hsite hframe).mpr ⟨halloc, hg, rfl⟩
  simp only [initEntry, hpage, hread, liftM_ok, mk_pure_bind, PageTableEntry.isUnused,
    hsite.unused, beq_self_eq_true, if_true, run_bind, hrun, except_ok_bind, run_pure]

/-- The P1 table of a group of windows, cleared. -/
structure Vm.HasTable (vm : Vm) (i : Fin 4) (g : PhysFrame) : Prop where
  walk : vm.walk (Vm.areaPath i) = some g
  cleared : vm.mem g = fun _ => 0
  direct : vm.Direct g

theorem Extends.hasTable (h : Extends vm vm') {i : Fin 4} (ht : vm.HasTable i g) :
    vm'.HasTable i g where
  walk := h.walk _ g (by simp [Vm.areaPath]) ht.walk
  cleared := (h.leaf _ g (by simp [Vm.areaPath]) ht.walk).trans ht.cleared
  direct := (h.direct_iff g).mpr ht.direct

/-- All P1 tables are empty, so the cache starts as it is meant to. -/
theorem Vm.HasTable.firstTable_eq {i : Fin 4} (h : vm.HasTable i g) :
    (⟨fun i => if i = 0 then vm.mem g else fun _ => 0, .new⟩ : VCache) = bootCache [] := by
  rw [bootCache_nil, VCache.initial]
  congr 1
  funext i
  rw [h.cleared, ite_self]

/-- The loop adds one P1 table after another, in the frames that the allocator hands out. -/
theorem initTables_run {p2 : PhysFrame} {is : List (Fin 4)} (hb : Booting vm pmm.free)
    (hs : pmm.Sound) (hw : vm.walk [256, 0] = some p2)
    (h : (initTables vm p2 is).run PhysicalFrameAllocator.pool pmm = .ok (vm', pmm')) :
    ∃ gs, pmm.Hands gs pmm' ∧ pmm'.Sound ∧ Booting vm' pmm'.free ∧ Extends vm vm' ∧
      List.Forall₂ vm'.HasTable is gs := by
  -- induction on the groups that are left; each turn extends the tables of the turn before
  induction is generalizing vm pmm with
  | nil =>
    simp only [initTables, run_pure, Except.ok.injEq, Prod.mk.injEq] at h
    obtain ⟨rfl, rfl⟩ := h
    exact ⟨[], .nil _, hs, hb, .refl _, .nil⟩
  | cons i is ih =>
    rw [initTables] at h
    simp only [↓run_lift_bind_eq_ok, run_bind_eq_ok, ensure_eq_ok] at h
    obtain ⟨page, hpage, word, hread, _, hunused, ⟨g, vm₁⟩, pmm₁, hrun, h⟩ := h
    obtain ⟨⟨page', hpage', hf⟩, rfl⟩ := (hb.read_eq_ok hpage).mp hread
    obtain rfl : page = page' := Except.ok.inj (hpage.symm.trans hpage')
    have hsite : Site vm [256, 0] p2 (i.castLE groups_le) :=
      ⟨by decide, hw, by simpa [PageTableEntry.isUnused] using hunused⟩
    obtain ⟨halloc, hdirect, rfl⟩ := (allocSubstruct_run hb hs hsite hf).mp hrun
    have hlinks := hsite.links hb hs halloc
    have htable : Vm.HasTable _ i g :=
      ⟨hlinks.walk, hlinks.cleared, (hlinks.ext.direct_iff g).mpr hdirect⟩
    obtain ⟨gs, hhands, hsound, hbooting, hext, htables⟩ :=
      ih hlinks.booting hlinks.sound (hlinks.ext.walk _ _ (by decide) hw) h
    exact ⟨g :: gs, (PhysicalFrameAllocator.Hands.single halloc).append hhands, hsound, hbooting,
      hlinks.ext.trans hext, .cons (hext.hasTable htable) htables⟩

/-- With frames left that the identity mapping shows, the loop goes through. -/
theorem exists_initTables {p2 : PhysFrame} {is : List (Fin 4)} (hb : Booting vm pmm.free)
    (hs : pmm.Sound) (hw : vm.walk [256, 0] = some p2) (hp2 : vm.Direct p2)
    (hdirect : ∀ f ∈ pmm.free, vm.Direct f) (hnodup : is.Nodup)
    (hunused : ∀ i ∈ is, vm.mem p2 (i.castLE groups_le) = 0)
    (hlen : (pmm.nextFrames is.length).length = is.length) :
    ∃ vm' pmm', (initTables vm p2 is).run PhysicalFrameAllocator.pool pmm = .ok (vm', pmm') := by
  induction is generalizing vm pmm with
  | nil => exact ⟨vm, pmm, rfl⟩
  | cons i is ih =>
    obtain ⟨g, pmm₁, halloc, hlen₁⟩ := PhysicalFrameAllocator.allocateFrame_of_nextFrames hlen
    obtain ⟨hfree, -, hfree₁, -⟩ := PhysicalFrameAllocator.allocateFrame_some hs halloc
    obtain ⟨hnot, hnodup⟩ := List.nodup_cons.mp hnodup
    rw [List.forall_mem_cons] at hunused
    have hsite : Site vm [256, 0] p2 (i.castLE groups_le) := ⟨by decide, hw, hunused.1⟩
    have hlinks := hsite.links hb hs halloc
    obtain ⟨page, hpage, hframe⟩ := hp2
    -- the entries of the other tables are still unused
    have hne : p2 ≠ g := by
      rintro rfl
      exact Set.disjoint_left.mp hb.fresh hfree ⟨[256, 0], by decide, hw⟩
    -- the rest of the loop starts from the tables with the new one, and from the frames that are
    -- left
    obtain ⟨vm', pmm', hrun⟩ := ih hlinks.booting hlinks.sound
      (hlinks.ext.walk _ _ (by decide) hw) ((hlinks.ext.direct_iff p2).mpr ⟨page, hpage, hframe⟩)
      (fun f hf => (hlinks.ext.direct_iff f).mpr (hdirect f (by rw [hfree₁] at hf; exact hf.1)))
      hnodup (fun k hk => by
        simp only [Vm.linkTable]
        rw [link_apply_of_ne hne, if_neg, hunused.2 k hk]
        rintro ⟨-, heq⟩
        obtain rfl : k = i := Fin.castLE_injective _ heq
        exact hnot hk) hlen₁
    have hread := (hb.read_eq_ok (i := i.castLE groups_le) hpage).mpr ⟨⟨page, hpage, hframe⟩, rfl⟩
    have halloc' := (allocSubstruct_run hb hs hsite hframe).mpr
      ⟨halloc, hdirect g hfree, rfl⟩
    refine ⟨vm', pmm', ?_⟩
    simp only [initTables, hpage, hread, liftM_ok, mk_pure_bind, PageTableEntry.isUnused,
      hunused.1, beq_self_eq_true, ensure_of, run_bind, halloc', except_ok_bind, hrun]

/-- One level of the tables above the windows: the table behind an entry, which is new or was there
before. -/
theorem initEntry_level (hb : Booting vm pmm.free) (hs : pmm.Sound) (hp : p.length < 3)
    (hw : vm.walk p = some f)
    (h : (initEntry vm f i).run PhysicalFrameAllocator.pool pmm = .ok (vm', pmm'))
    (hframe : entryFrame vm' f i = .ok g) :
    ∃ gs, pmm.Hands gs pmm' ∧ pmm'.Sound ∧ Booting vm' pmm'.free ∧ Extends vm vm' ∧
      vm'.walk (p ++ [i]) = some g ∧
      ((gs.length = 0 ∧ vm' = vm ∧ (vm.mem f i).frame = some g) ∨
        (gs.length = 1 ∧ vm.mem f i = 0 ∧ vm'.mem g = fun _ => 0)) := by
  rcases initEntry_cases hb hs hp hw h with ⟨-, rfl, rfl⟩ | ⟨hunused, g', hlinks⟩
  · obtain ⟨-, hword⟩ := hb.entryFrame_eq_ok.mp hframe
    exact ⟨[], .nil _, hs, hb, .refl _, walk_snoc_eq_some.mpr ⟨f, hw, hword⟩,
      .inl ⟨rfl, rfl, hword⟩⟩
  · obtain ⟨-, hword⟩ := hlinks.booting.entryFrame_eq_ok.mp hframe
    obtain ⟨f', hf', hword'⟩ := walk_snoc_eq_some.mp hlinks.walk
    obtain rfl : f' = f := Option.some.inj (hf'.symm.trans (hlinks.ext.walk p f hp.le hw))
    obtain rfl : g' = g := Option.some.inj (hword'.symm.trans hword)
    exact ⟨[g'], .single hlinks.alloc, hlinks.sound, hlinks.booting, hlinks.ext, hlinks.walk,
      .inr ⟨rfl, hunused, hlinks.cleared⟩⟩

end Steps

/-! ## The state after the initialisation -/

/-- The number of tables above the P1 tables that have to be allocated. -/
def Vm.missingTables (vm : Vm) : ℕ :=
  match (vm.mem vm.cr3 kvmspace.p4Index).frame with
  | none => 2
  | some p3 => if vm.mem p3 kvmspace.p3Index = 0 then 1 else 0

theorem kvmspace_p4Index : kvmspace.p4Index = 256 := by decide

theorem kvmspace_p3Index : kvmspace.p3Index = 0 := by decide

/-- After `vcache::init`: `tables` are the P1 tables in the P2 table, and `windows` the frames that
the first windows show. -/
structure Initialised (vm : Vm) (F : Set PhysFrame) (tables : Fin 4 → PhysFrame)
    (windows : List PhysFrame) : Prop where
  tree : IsTree PageTableEntry.frame vm.mem vm.cr3 3
  fresh : Disjoint F vm.tables
  walk : ∀ i, vm.walk (Vm.areaPath i) = some (tables i)
  length : windows.length = 4
  consecutive : ∀ k f, windows[k]? = some f → f.num = (tables 0).num + k
  entries : ∀ i, vm.mem (tables i) = (bootCache windows).p1 i
  state : vm.vcacheState = (bootCache windows).state
  p1 : vm.p1 = vm.shown

section Init

variable {vm vm' : Vm} {F : Set PhysFrame} {pmm pmm' : PhysicalFrameAllocator}
  {tables : Fin 4 → PhysFrame} {windows : List PhysFrame}

/-- The tables down to the P2 table. -/
theorem upperTables_run {vm₁ vm₂ : Vm} {pmm₁ pmm₂ : PhysicalFrameAllocator} {p3 p2 : PhysFrame}
    (hb : Booting vm pmm.free) (hs : pmm.Sound)
    (h₁ : (initEntry vm vm.cr3 256).run PhysicalFrameAllocator.pool pmm = .ok (vm₁, pmm₁))
    (hp3 : entryFrame vm₁ vm₁.cr3 256 = .ok p3)
    (h₂ : (initEntry vm₁ p3 0).run PhysicalFrameAllocator.pool pmm₁ = .ok (vm₂, pmm₂))
    (hp2 : entryFrame vm₂ p3 0 = .ok p2) :
    ∃ upper, pmm.Hands upper pmm₂ ∧ upper.length = vm.missingTables ∧ pmm₂.Sound ∧
      Booting vm₂ pmm₂.free ∧ vm₂.walk [256, 0] = some p2 := by
  -- the root stays where it is
  have hroot : vm₁.cr3 = vm.cr3 := by
    rcases initEntry_cases (p := []) hb hs (by decide) rfl h₁ with ⟨-, rfl, -⟩ | ⟨-, g, hlinks⟩
    · rfl
    · exact hlinks.ext.cr3
  rw [hroot] at hp3
  obtain ⟨gs₁, hhands₁, hs₁, hb₁, -, hw₁, hcases₁⟩ :=
    initEntry_level (p := []) hb hs (by decide) rfl h₁ hp3
  obtain ⟨gs₂, hhands₂, hs₂, hb₂, -, hw₂, hcases₂⟩ :=
    initEntry_level (p := [256]) hb₁ hs₁ (by decide) hw₁ h₂ hp2
  refine ⟨gs₁ ++ gs₂, hhands₁.append hhands₂, ?_, hs₂, hb₂, hw₂⟩
  rw [List.length_append, Vm.missingTables, kvmspace_p4Index, kvmspace_p3Index]
  rcases hcases₁ with ⟨hlen₁, rfl, hword₁⟩ | ⟨hlen₁, hword₁, hclear₁⟩
  · -- the P3 table was there before
    rw [hlen₁, hword₁]
    rcases hcases₂ with ⟨hlen₂, -, hword₂⟩ | ⟨hlen₂, hword₂, -⟩
    · have hused : vm₁.mem p3 0 ≠ 0 := by
        intro hzero
        rw [hzero, PageTableEntry.frame_zero] at hword₂
        cases hword₂
      rw [hlen₂]
      exact (if_neg hused).symm
    · rw [hlen₂]
      exact (if_pos hword₂).symm
  · -- a new P3 table is empty, so that the P2 table is new as well
    rw [hlen₁, hword₁, PageTableEntry.frame_zero]
    rcases hcases₂ with ⟨-, -, hword₂⟩ | ⟨hlen₂, -, -⟩
    · rw [hclear₁, PageTableEntry.frame_zero] at hword₂
      cases hword₂
    · rw [hlen₂]

/-- The windows are entries of the first P1 table. `VCache::renew` writes them there, and the cache
then consists of whatever tables the four windows show. -/
theorem Booting.renew (hb : Booting vm F) (htables : ∀ i, vm.HasTable i (tables i)) {vc : VCache}
    (h : initWindows (tables 0) 4 0
      ⟨fun i => if i = 0 then vm.mem (tables 0) else fun _ => 0, .new⟩ = .ok vc) :
    ∃ windows, Initialised (vm.renew (tables 0) vc) F tables windows := by
  rw [(htables 0).firstTable_eq] at h
  obtain ⟨windows, rfl, hlen, hnum⟩ := @initWindows_eq_ok [] _ _ _ (by simp) h
  rw [List.nil_append]
  -- only the first P1 table is written, and no walk passes through it
  have hagree : AgreeAbove PageTableEntry.frame vm.mem
      (vm.renew (tables 0) (bootCache windows)).mem vm.cr3 3 := by
    refine hb.tree.agreeAbove fun f hne => ⟨Vm.areaPath 0, rfl, ?_⟩
    obtain rfl : f = tables 0 := by
      by_contra hf
      exact hne (Function.update_of_ne hf ..)
    exact (htables 0).walk
  -- the four tables are at different paths, so that they are different frames
  have hdistinct : ∀ i, i ≠ 0 → tables i ≠ tables 0 := by
    intro i hi heq
    have hpath := hb.tree (Vm.areaPath i) (Vm.areaPath 0) (tables 0) (by simp [Vm.areaPath])
      (by simp [Vm.areaPath]) (heq ▸ (htables i).walk) (htables 0).walk
    simp only [Vm.areaPath, List.cons.injEq, and_true, true_and] at hpath
    exact hi (Fin.castLE_injective _ hpath)
  refine ⟨windows, hagree.isTree hb.tree, ?_, fun i => ?_, hlen, fun k f hk => ?_, fun i => ?_,
    rfl, rfl⟩
  · have hsame : (vm.renew (tables 0) (bootCache windows)).tables = vm.tables := hagree.tables_eq
    rw [hsame]
    exact hb.fresh
  · exact (hagree.walk_eq (by simp [Vm.areaPath])).trans (htables i).walk
  · simpa using hnum k f hk
  · by_cases hi : i = 0
    · subst hi
      exact Function.update_self ..
    · have hzero : (bootCache windows).p1 i = fun _ => 0 := by
        funext j
        exact if_neg fun hval => hi (Fin.ext hval)
      rw [hzero, ← (htables i).cleared]
      exact Function.update_of_ne (hdistinct i hi) ..

/-- A list that goes with the numbers below `n` is a function of them. -/
theorem exists_ofFn_of_forall₂ {n : ℕ} {α : Type} {R : Fin n → α → Prop} {xs : List α}
    (h : List.Forall₂ R (List.finRange n) xs) :
    ∃ f : Fin n → α, xs = List.ofFn f ∧ ∀ i, R i (f i) := by
  obtain rfl : n = xs.length := by
    rw [← h.length_eq, List.length_finRange]
  refine ⟨xs.get, (List.ofFn_get xs).symm, fun i => ?_⟩
  have hi := h.get (by rw [List.length_finRange]; exact i.isLt) i.isLt
  rwa [List.get_eq_getElem, List.getElem_finRange] at hi

/-- What `vcache::init` leaves behind: it has taken the tables that were missing above, then the
four P1 tables, in the order in which the allocator hands them out. -/
theorem VCache.init_spec (hb : Booting vm pmm.free) (hs : pmm.Sound)
    (h : (VCache.init vm).run PhysicalFrameAllocator.pool pmm = .ok (vm', pmm')) :
    ∃ upper tables windows, pmm.Hands (upper ++ List.ofFn tables) pmm' ∧
      upper.length = vm.missingTables ∧ Initialised vm' pmm'.free tables windows := by
  simp only [VCache.init, ↓run_lift_bind_eq_ok, run_bind_eq_ok, run_pure, Except.ok.injEq,
    Prod.mk.injEq, kvmspace_p4Index, kvmspace_p3Index] at h
  obtain ⟨vm₁, pmm₁, h₁, p3, hp3, vm₂, pmm₂, h₂, p2, hp2, vm₃, pmm₃, h₃, p1Frame, hp1, page, hpage,
    first, hfirst, vc, hvc, rfl, rfl⟩ := h
  obtain ⟨upper, hhands, hlen, hs₂, hb₂, hw₂⟩ := upperTables_run hb hs h₁ hp3 h₂ hp2
  obtain ⟨gs, hhands', hs₃, hb₃, hext, hforall⟩ := initTables_run hb₂ hs₂ hw₂ h₃
  obtain ⟨tables, rfl, htables⟩ := exists_ofFn_of_forall₂ hforall
  obtain rfl := hb₃.identity p1Frame page first hpage hfirst
  obtain rfl : first = tables 0 := by
    obtain ⟨-, hword⟩ := hb₃.entryFrame_eq_ok.mp hp1
    have hwalk : vm₃.walk (Vm.areaPath 0) = some first :=
      walk_snoc_eq_some.mpr ⟨p2, hext.walk _ _ (by decide) hw₂, hword⟩
    exact Option.some.inj (hwalk.symm.trans (htables 0).walk)
  obtain ⟨windows, hinit⟩ := hb₃.renew htables hvc
  exact ⟨upper, tables, windows, hhands.append hhands', hlen, hinit⟩

/-- A window shows the frame it was mapped to, seen from the processor. -/
theorem Initialised.translate (h : Initialised vm F tables windows) (i : Fin 4) :
    ∃ f, windows[i.val]? = some f ∧ f.num = (tables 0).num + i.val ∧
      vm.translate (slotPage 0 (i.castLE groups_le)) = some ⟨f, windowFlags⟩ := by
  have hlt : i.val < windows.length := by
    rw [h.length]
    exact i.isLt
  have hget : windows[i.val]? = some windows[i.val] := List.getElem?_eq_getElem hlt
  refine ⟨windows[i.val], hget, h.consecutive _ _ hget, ?_⟩
  rw [Vm.translate, Vm.slotPage_path, slotPage_p1Index, stop_of_walk (h.walk 0), h.entries 0]
  have hentry : (bootCache windows).p1 0 (i.castLE groups_le) = windowEntry windows[i.val] := by
    simp only [bootCache, Fin.val_castLE, hget]
    rfl
  rw [hentry, resolve, if_pos (present_windowEntry _), addr_windowEntry, windowEntry,
    PageTableEntry.flags_ofFrame]

theorem Initialised.p1_eq (h : Initialised vm F tables windows) {i : Fin 4} {t : Translation}
    (ht : vm.translate (slotPage 0 (i.castLE groups_le)) = some t) : vm.p1 i = t.frame := by
  rw [h.p1, Vm.shown, ht]
  rfl

/-- The windows show the tables exactly when the tables are consecutive. -/
theorem Initialised.window_iff (h : Initialised vm F tables windows) (i : Fin 4) :
    (∃ t, vm.translate (slotPage 0 (i.castLE groups_le)) = some t ∧
        vm.walk (Vm.areaPath i) = some t.frame ∧ vm.p1 i = t.frame) ↔
      (tables i).num = (tables 0).num + i.val := by
  obtain ⟨f, -, hnum, htrans⟩ := h.translate i
  rw [h.walk i, ← hnum]
  constructor
  · rintro ⟨t, ht, hframe, -⟩
    rw [htrans, Option.some.injEq] at ht
    rw [Option.some.inj hframe, ← ht]
  · intro heq
    have hf : tables i = f := PhysFrame.ext heq
    exact ⟨_, htrans, congrArg some hf, h.p1_eq htrans⟩

/-- Four frames in a row. -/
def Consecutive (frames : List PhysFrame) : Prop :=
  ∃ n, frames.map PhysFrame.num = List.range' n 4

theorem consecutive_ofFn_iff : Consecutive (List.ofFn tables) ↔
    ∀ i : Fin 4, (tables i).num = (tables 0).num + i.val := by
  have hlist : (List.ofFn tables).map PhysFrame.num =
      [(tables 0).num, (tables 1).num, (tables 2).num, (tables 3).num] := by
    simp [List.ofFn_succ]
  rw [Consecutive, hlist]
  simp only [List.range', List.cons.injEq, and_true]
  constructor
  · rintro ⟨n, h₀, h₁, h₂, h₃⟩ i
    fin_cases i
    · rfl
    · exact h₁.trans (congrArg (· + 1) h₀.symm)
    · exact h₂.trans (congrArg (· + 2) h₀.symm)
    · exact h₃.trans (congrArg (· + 3) h₀.symm)
  · intro h
    exact ⟨(tables 0).num, rfl, h 1, h 2, h 3⟩

/-- **Every window shows its P1 table exactly when the four tables are in consecutive frames.**
The frames are those that `palloc` returns after the tables above, for every state of the
allocator from which `vcache::init` returns. -/
theorem vcache_wired_iff (hb : Booting vm pmm.free) (hs : pmm.Sound)
    (h : (VCache.init vm).run PhysicalFrameAllocator.pool pmm = .ok (vm', pmm')) :
    (∀ i : Fin 4, ∃ t, vm'.translate (slotPage 0 (i.castLE groups_le)) = some t ∧
        vm'.walk (Vm.areaPath i) = some t.frame ∧ vm'.p1 i = t.frame) ↔
      Consecutive ((pmm.nextFrames (vm.missingTables + 4)).drop vm.missingTables) := by
  obtain ⟨upper, tables, windows, hhands, hlen, hinit⟩ := VCache.init_spec hb hs h
  have hframes := hhands.nextFrames_eq
  rw [List.length_append, List.length_ofFn, hlen] at hframes
  rw [hframes, List.drop_left' hlen, consecutive_ofFn_iff]
  exact forall_congr' hinit.window_iff

/-! ## The invariant of the mapper -/

/-- **The mapper starts with its invariant** when the P1 tables are in consecutive frames: every
window shows the table that it is meant to, and the fifth window shows the root. -/
theorem inv_of_init (h : Initialised vm F tables windows)
    (hconsecutive : ∀ i : Fin 4, (tables i).num = (tables 0).num + i.val)
    (hmap : KernelMapper.init vm = .ok vm') : vm'.Inv ∧ Disjoint F vm'.tables := by
  have hp1 : vm.p1 = tables := by
    funext i
    obtain ⟨t, -, hwalk, hp1⟩ := (h.window_iff i).mpr (hconsecutive i)
    rw [hp1]
    exact Option.some.inj (hwalk.symm.trans (h.walk i))
  have hwired : vm.Wired := fun i => by rw [hp1, h.walk]
  -- different groups have different tables
  have hinj : Function.Injective vm.p1 := by
    intro i i' heq
    have hpath := h.tree _ _ _ (by simp [Vm.areaPath]) (by simp [Vm.areaPath]) (hwired i)
      (heq ▸ hwired i')
    simp only [Vm.areaPath, List.cons.injEq, and_true, true_and] at hpath
    exact Fin.castLE_injective _ hpath
  -- what the source reads through the windows is what was written
  have hcache : vm.vcache = bootCache windows := by
    have htables : (fun i => vm.mem (vm.p1 i)) = (bootCache windows).p1 := by
      funext i
      rw [hp1, h.entries]
    rw [Vm.vcache, htables, h.state]
  -- the root is shown by the fifth window
  have hlen : windows.length < 512 := by
    rw [h.length]
    decide
  simp only [KernelMapper.init, hcache, map_bootCache hlen, except_ok_bind, unwrap_some,
    Except.ok.injEq] at hmap
  subst hmap
  have hagree : AgreeAbove PageTableEntry.frame vm.mem
      (vm.withVCache (bootCache (windows ++ [vm.cr3]))).mem vm.cr3 3 := by
    refine h.tree.agreeAbove fun f hne => ?_
    obtain ⟨i, rfl⟩ : ∃ i, f = vm.p1 i := by
      by_contra hf
      exact hne (Vm.withVCache_mem_of_ne fun i hi => hf ⟨i, hi⟩)
    exact ⟨Vm.areaPath i, rfl, hwired i⟩
  refine ⟨⟨hagree.isTree h.tree, fun i => ?_, (0, ⟨windows.length, hlen⟩), rfl, ?_, rfl⟩, ?_⟩
  · exact (hagree.walk_eq (by simp [Vm.areaPath])).trans (hwired i)
  · have hentry : (vm.withVCache (bootCache (windows ++ [vm.cr3]))).mem (vm.p1 0)
        ⟨windows.length, hlen⟩ = windowEntry vm.cr3 := by
      rw [Vm.withVCache_mem_p1 hinj]
      simp [bootCache]
    exact ⟨by rw [Vm.entry]; exact hentry ▸ present_windowEntry _,
      by rw [Vm.entry]; exact hentry ▸ addr_windowEntry _⟩
  · have hsame : (vm.withVCache (bootCache (windows ++ [vm.cr3]))).tables = vm.tables :=
      hagree.tables_eq
    change Disjoint F (vm.withVCache (bootCache (windows ++ [vm.cr3]))).tables
    rw [hsame]
    exact h.fresh

/-! ## Progress -/

theorem Vm.Direct.num_lt {f : PhysFrame} (h : vm.Direct f) : f.num < 2 ^ 35 := by
  obtain ⟨page, hpage, -⟩ := h
  exact (identityPage_eq_ok hpage).1

/-- One level of the tables above the windows, for an unused entry. -/
private theorem exists_level {p : List (Fin 512)} {f : PhysFrame} {i : Fin 512} {n : ℕ}
    (hb : Booting vm pmm.free) (hs : pmm.Sound) (hsite : Site vm p f i) (hf : vm.Direct f)
    (hdirect : ∀ f ∈ pmm.free, vm.Direct f) (hlen : (pmm.nextFrames (n + 1)).length = n + 1) :
    ∃ g vm' pmm', (initEntry vm f i).run PhysicalFrameAllocator.pool pmm = .ok (vm', pmm') ∧
      entryFrame vm' f i = .ok g ∧ Links vm vm' pmm pmm' p i g ∧ vm'.Direct g ∧
      (∀ f ∈ pmm'.free, vm'.Direct f) ∧ (pmm'.nextFrames n).length = n := by
  obtain ⟨g, pmm', halloc, hlen'⟩ := PhysicalFrameAllocator.allocateFrame_of_nextFrames hlen
  obtain ⟨hfree, -, hfree', -⟩ := PhysicalFrameAllocator.allocateFrame_some hs halloc
  have hlinks := hsite.links hb hs halloc
  have hg := hdirect g hfree
  obtain ⟨f', hf', hword⟩ := walk_snoc_eq_some.mp hlinks.walk
  obtain rfl : f' = f :=
    Option.some.inj (hf'.symm.trans (hlinks.ext.walk p f hsite.depth.le hsite.at_path))
  refine ⟨g, _, pmm', initEntry_of_unused hb hs hsite hf hg halloc, ?_, hlinks,
    (hlinks.ext.direct_iff g).mpr hg, fun f hf => (hlinks.ext.direct_iff f).mpr
    (hdirect f ?_), hlen'⟩
  · exact hlinks.booting.entryFrame_eq_ok.mpr ⟨(hlinks.ext.direct_iff f').mpr hf, hword⟩
  · rw [hfree'] at hf
    exact hf.1

/-- Without a P3 table for the area, six frames are enough. -/
theorem exists_init (hb : Booting vm pmm.free) (hs : pmm.Sound) (hroot : vm.mem vm.cr3 256 = 0)
    (hcr3 : vm.Direct vm.cr3) (hdirect : ∀ f ∈ pmm.free, vm.Direct f)
    (hlen : (pmm.nextFrames 6).length = 6) :
    ∃ vm' pmm', (VCache.init vm).run PhysicalFrameAllocator.pool pmm = .ok (vm', pmm') := by
  -- a P3 table, a P2 table, and the four P1 tables
  obtain ⟨p3, vm₁, pmm₁, h₁, hp3, hl₁, hd₁, hdirect₁, hlen₁⟩ :=
    exists_level (p := []) hb hs ⟨by decide, rfl, hroot⟩ hcr3 hdirect hlen
  obtain ⟨p2, vm₂, pmm₂, h₂, hp2, hl₂, hd₂, hdirect₂, hlen₂⟩ :=
    exists_level (p := [256]) (i := 0) hl₁.booting hl₁.sound
      ⟨by decide, hl₁.walk, by rw [hl₁.cleared]⟩ hd₁ hdirect₁ hlen₁
  obtain ⟨vm₃, pmm₃, h₃⟩ := exists_initTables hl₂.booting hl₂.sound hl₂.walk hd₂ hdirect₂
    (List.nodup_finRange 4) (fun i _ => by rw [hl₂.cleared]) (by simpa using hlen₂)
  obtain ⟨gs, -, -, hb₃, hext, htables⟩ := initTables_run hl₂.booting hl₂.sound hl₂.walk h₃
  -- the first P1 table is at the first entry of the P2 table
  rw [show List.finRange 4 = 0 :: [1, 2, 3] by decide] at htables
  obtain ⟨first, _, htable, -, rfl⟩ := List.forall₂_cons_left_iff.mp htables
  have hwalk : vm₃.walk ([256, 0] ++ [0]) = some first := htable.walk
  obtain ⟨p2', hp2', hword⟩ := walk_snoc_eq_some.mp hwalk
  obtain rfl : p2' = p2 := Option.some.inj (hp2'.symm.trans (hext.walk _ _ (by decide) hl₂.walk))
  have hp1 := hb₃.entryFrame_eq_ok.mpr ⟨(hext.direct_iff p2').mpr hd₂, hword⟩
  obtain ⟨page, hpage, hfirst⟩ := htable.direct
  obtain ⟨vc, hvc⟩ : ∃ vc, initWindows first 4 0 (bootCache []) = .ok vc :=
    @exists_initWindows [] first 4 (by simp) (by
      have := htable.direct.num_lt
      rw [List.length_nil]
      omega)
  refine ⟨vm₃.renew first vc, pmm₃, ?_⟩
  simp only [VCache.init, run_bind, run_lift, run_pure, kvmspace_p4Index, kvmspace_p3Index, h₁,
    hl₁.ext.cr3, hp3, h₂, hp2, h₃, hp1, hpage, hfirst, htable.firstTable_eq, hvc, except_ok_bind]

end Init

/-! ## Two memory maps -/

/-- The tables of a loader: the first GiB is mapped to itself by one huge page. -/
def identityVm : Vm where
  mem f i :=
    if f.num = 0x10 ∧ i.val = 0 then tableEntry ⟨0x11, by decide⟩
    else if f.num = 0x11 ∧ i.val = 0 then .ofFrame nullFrame (initFlags ||| .HUGE_PAGE)
    else 0
  cr3 := ⟨0x10, by decide⟩
  p1 _ := nullFrame
  vcacheState := .new
  p4table := kvmspace

private theorem hugeEntry_frame :
    (PageTableEntry.ofFrame nullFrame (initFlags ||| .HUGE_PAGE)).frame = none := by decide

private theorem identityVm_zero (f : PhysFrame) {i : Fin 512} (hi : i.val ≠ 0) :
    identityVm.mem f i = 0 := by
  simp only [identityVm]
  rw [if_neg fun h => hi h.2, if_neg fun h => hi h.2]

private theorem identityVm_link {f g : PhysFrame} {i : Fin 512}
    (h : (identityVm.mem f i).frame = some g) : f.num = 0x10 ∧ i = 0 ∧ g.num = 0x11 := by
  simp only [identityVm] at h
  split_ifs at h with h₁ h₂
  · rw [tableEntry, PageTableEntry.frame_ofFrame _ initFlags_spec.1 initFlags_spec.2,
      Option.some.injEq] at h
    exact ⟨h₁.1, Fin.ext h₁.2, by rw [← h]⟩
  · rw [hugeEntry_frame] at h
    cases h
  · rw [PageTableEntry.frame_zero] at h
    cases h

private theorem identityVm_walk {p : List (Fin 512)} {f : PhysFrame}
    (h : identityVm.walk p = some f) : p = [] ∧ f.num = 0x10 ∨ p = [0] ∧ f.num = 0x11 := by
  induction p using List.reverseRecOn generalizing f with
  | nil =>
    cases h
    exact .inl ⟨rfl, rfl⟩
  | append_singleton p k ih =>
    obtain ⟨g, hg, hk⟩ := walk_snoc_eq_some.mp h
    obtain ⟨hnum, rfl, hf⟩ := identityVm_link hk
    rcases ih hg with ⟨rfl, -⟩ | ⟨-, hother⟩
    · exact .inr ⟨rfl, hf⟩
    · omega

private theorem identityVm_child : identityVm.walk [0] = some ⟨0x11, by decide⟩ := by decide

/-- Pages of the first GiB are mapped to their own addresses. -/
private theorem identityVm_low {f : PhysFrame} {page : Page} (hnum : page.num = f.num)
    (hlow : f.num < 2 ^ 18) : ∃ flags, identityVm.translate page = some ⟨f, flags⟩ := by
  have h4 : page.p4Index = 0 := Fin.ext (by simp only [Page.p4Index, hnum]; change _ = 0; omega)
  have h3 : page.p3Index = 0 := Fin.ext (by simp only [Page.p3Index, hnum]; change _ = 0; omega)
  have hpath : page.path = [0] ++ 0 :: [page.p2Index] := by
    rw [Page.path, h4, h3]
    rfl
  have hhuge : identityVm.mem ⟨0x11, by decide⟩ 0 =
      .ofFrame nullFrame (initFlags ||| .HUGE_PAGE) := rfl
  have hpresent : (PageTableEntry.ofFrame nullFrame (initFlags ||| .HUGE_PAGE)).present = true := by
    decide
  have hgiant : giantFrame nullFrame page.p2Index page.p1Index = f := by
    ext
    simp only [giantFrame, nullFrame, Page.p2Index, Page.p1Index, hnum]
    omega
  rw [Vm.translate, hpath, stop_of_stuck identityVm_child (hhuge ▸ hugeEntry_frame), hhuge]
  simp only [List.singleton_append, resolve, hpresent, if_true, PageTableEntry.addr_ofFrame, hgiant]
  exact ⟨_, rfl⟩

/-- Above the first GiB the walk ends on an unused word, in the root or in the table below it. -/
private theorem identityVm_high {page : Page} (h : 2 ^ 18 ≤ page.num) (hlt : page.num < 2 ^ 35) :
    identityVm.translate page = none := by
  by_cases h4 : page.p4Index.val = 0
  · have h3 : page.p3Index.val ≠ 0 := by
      simp only [Page.p4Index, Page.p3Index] at h4 ⊢
      omega
    have hpath : page.path = [0] ++ page.p3Index :: [page.p2Index] := by
      rw [Page.path, show page.p4Index = 0 from Fin.ext h4]
      rfl
    exact Vm.translate_eq_none hpath identityVm_child (identityVm_zero _ h3)
  · exact Vm.translate_eq_none (q := []) rfl rfl (identityVm_zero identityVm.cr3 h4)

private theorem identityVm_frameOf {f : PhysFrame} {page : Page}
    (hpage : identityPage f = .ok page) {g : PhysFrame} :
    identityVm.frameOf page = .ok g ↔ f.num < 2 ^ 18 ∧ g = f := by
  obtain ⟨hlt, hnum⟩ := identityPage_eq_ok hpage
  by_cases hlow : f.num < 2 ^ 18
  · obtain ⟨flags, ht⟩ := identityVm_low hnum hlow
    simp only [Vm.frameOf, ht, Except.ok.injEq, hlow, true_and, eq_comm]
  · have ht := identityVm_high (hnum ▸ Nat.not_lt.mp hlow) (hnum ▸ hlt)
    simp only [Vm.frameOf, ht, reduceCtorEq, hlow, false_and]

theorem identityVm_direct {f : PhysFrame} (h : f.num < 2 ^ 18) : identityVm.Direct f := by
  have hpage : identityPage f = .ok ⟨f.num, .inl (by omega)⟩ := dif_pos (by omega)
  exact ⟨_, hpage, (identityVm_frameOf hpage).mpr ⟨h, rfl⟩⟩

theorem identityVm_booting {F : Set PhysFrame} (h : ∀ f ∈ F, 0x12 ≤ f.num) :
    Booting identityVm F where
  tree p q f _ _ hp hq := by
    rcases identityVm_walk hp with ⟨rfl, hf⟩ | ⟨rfl, hf⟩ <;>
      rcases identityVm_walk hq with ⟨rfl, hf'⟩ | ⟨rfl, hf'⟩
    · rfl
    · omega
    · omega
    · rfl
  fresh := by
    refine Set.disjoint_left.mpr fun f hf hmem => ?_
    obtain ⟨p, -, hw⟩ := hmem
    have hlo := h f hf
    rcases identityVm_walk hw with ⟨-, hnum⟩ | ⟨-, hnum⟩
    · omega
    · omega
  identity f page g hpage hg := ((identityVm_frameOf hpage).mp hg).2

/-- A memory map with a free region of eight pages, and one of four pages above it. -/
def splitRegions : BootBoot :=
  ⟨bootBootSize + mmapEntSize, fun i => if i = 0 then ⟨0x100000, 0x8001⟩ else ⟨0x200000, 0x4001⟩⟩

theorem splitRegions_ascending : splitRegions.Ascending :=
  ascending_of_pair (by decide +kernel : splitRegions.entries =
    [⟨0x100000, 0x8001⟩, ⟨0x200000, 0x4001⟩]) (by decide) (by decide) (by decide)

/-- The allocator that `phys::init` builds from it.  One page of the upper region has the header. -/
def splitPmm : PhysicalFrameAllocator where
  segments := [⟨.new 0x201000 0x3000, [0xfffffffffffffff8]⟩,
    ⟨.new 0x100000 0x8000, [0xffffffffffffff00]⟩]
  size := 64
  phyframe := upperFrame

theorem init_splitRegions : init false splitRegions = .ok splitPmm := by decide +kernel

/-- The loader maps the area of the cache nowhere. -/
theorem identityVm_missing : identityVm.missingTables = 2 := by decide

theorem exists_init_identity {pmm : PhysicalFrameAllocator} (hs : pmm.Sound)
    (hfree : ∀ f ∈ pmm.free, 0x12 ≤ f.num ∧ f.num < 2 ^ 18)
    (hlen : (pmm.nextFrames 6).length = 6) : Booting identityVm pmm.free ∧
      ∃ vm' pmm', (VCache.init identityVm).run PhysicalFrameAllocator.pool pmm =
        .ok (vm', pmm') := by
  have hb := identityVm_booting fun f hf => (hfree f hf).1
  exact ⟨hb, exists_init hb hs (by decide) (identityVm_direct (by decide))
    (fun f hf => identityVm_direct (hfree f hf).2) hlen⟩

/-- One region of 4096 pages: the tables are consecutive. -/
theorem vcache_wired_fresh : ∃ vm' pmm', Booting identityVm freshPmm.free ∧ freshPmm.Sound ∧
    (VCache.init identityVm).run PhysicalFrameAllocator.pool freshPmm = .ok (vm', pmm') ∧
    ∀ i : Fin 4, ∃ t, vm'.translate (slotPage 0 (i.castLE groups_le)) = some t ∧
      vm'.walk (Vm.areaPath i) = some t.frame ∧ vm'.p1 i = t.frame := by
  have hnext : freshPmm.nextFrames 6 = [⟨0x101, by decide⟩, ⟨0x102, by decide⟩, ⟨0x103, by decide⟩,
      ⟨0x104, by decide⟩, ⟨0x105, by decide⟩, ⟨0x106, by decide⟩] := by decide +kernel
  obtain ⟨hb, vm', pmm', hrun⟩ := exists_init_identity freshPmm_sound
    (fun f hf => num_of_mem_free 0x12 (2 ^ 18) (by decide) hf) (by rw [hnext]; rfl)
  refine ⟨vm', pmm', hb, freshPmm_sound, hrun, (vcache_wired_iff hb freshPmm_sound hrun).mpr ?_⟩
  rw [identityVm_missing, hnext]
  exact ⟨0x103, rfl⟩

/-- The first three frames are the last of the upper region, and the others the first of the lower
one.  The second window shows the frame behind the upper region. -/
theorem vcache_miswired : ∃ pmm vm' pmm', init false splitRegions = .ok pmm ∧ pmm.Sound ∧
    Booting identityVm pmm.free ∧
    (VCache.init identityVm).run PhysicalFrameAllocator.pool pmm = .ok (vm', pmm') ∧
    vm'.translate (slotPage 0 1) = some ⟨⟨0x204, by decide⟩, windowFlags⟩ ∧
    vm'.walk (Vm.areaPath 1) = some ⟨0x100, by decide⟩ := by
  have hnext : splitPmm.nextFrames 6 = [⟨0x201, by decide⟩, ⟨0x202, by decide⟩, ⟨0x203, by decide⟩,
      ⟨0x100, by decide⟩, ⟨0x101, by decide⟩, ⟨0x102, by decide⟩] := by decide +kernel
  have hs : splitPmm.Sound := sound_of_ascending splitRegions_ascending init_splitRegions
  obtain ⟨hb, vm', pmm', hrun⟩ := exists_init_identity hs
    (fun f hf => num_of_mem_free 0x12 (2 ^ 18) (by decide) hf) (by rw [hnext]; rfl)
  refine ⟨splitPmm, vm', pmm', init_splitRegions, hs, hb, hrun, ?_⟩
  obtain ⟨upper, tables, windows, hhands, hlen, hinit⟩ := VCache.init_spec hb hs hrun
  -- the P1 tables are the last four of the six frames
  have hframes := hhands.nextFrames_eq
  rw [List.length_append, List.length_ofFn, hlen, identityVm_missing, hnext] at hframes
  have htables : List.ofFn tables = [⟨0x203, by decide⟩, ⟨0x100, by decide⟩, ⟨0x101, by decide⟩,
      ⟨0x102, by decide⟩] := by
    have hdrop : (upper ++ List.ofFn tables).drop 2 = List.ofFn tables :=
      List.drop_left' (hlen.trans identityVm_missing)
    rw [← hdrop, ← hframes]
    rfl
  simp only [List.ofFn_succ, List.cons.injEq] at htables
  obtain ⟨h₀, h₁, -⟩ := htables
  -- the second window was mapped to the frame behind the first table
  obtain ⟨f, -, hnum, htrans⟩ := hinit.translate 1
  refine ⟨htrans.trans ?_, (hinit.walk 1).trans (congrArg some h₁)⟩
  rw [h₀] at hnum
  rw [show f = ⟨0x204, by decide⟩ from PhysFrame.ext hnum]

end HeliumOS.Mem.Virt
