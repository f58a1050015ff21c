import HeliumOS.Mem.Virt.Mapper

/-!
# Correctness of the Kernel Mapper

`KernelMapper::map` translates every page of its range to the frame it was given, and changes the
translation of no other page outside the area of the virtual cache.

- `ensureAllocated_eq` says what one level of the descent computes, through the windows it uses
  and with the new table linked before it is cleared.
- `Evolves` is what the steps of the mapper preserve.  It composes, so that a run of the loop is
  a chain of single steps (`mapPages_evolves`).
- `map_translates` is the result about the whole call.
-/

namespace HeliumOS.Mem.Virt

open HeliumOS.Lib HeliumOS.Lib.Radix HeliumOS.Lib.AllocProg

namespace Vm

/-! ## Changing tables above the leaves -/

/-- The state with the entry of one window replaced. -/
def setWindow (vm : Vm) (s : Window) (w : PageTableEntry) : Vm := vm.setEntry (vm.p1 s.1) s.2 w

/-- The state with a cleared table `g` linked from entry `i` of `f`. -/
def linkTable (vm : Vm) (f : PhysFrame) (i : Fin 512) (w : PageTableEntry) (g : PhysFrame) : Vm :=
  { vm with mem := link vm.mem f i w g 0 }

variable {vm : Vm} {f g : PhysFrame} {i : Fin 512} {p : List (Fin 512)} {s : Window}

/-- The P1 tables of the windows are not above the leaves. -/
theorem Inv.p1_ne (hinv : vm.Inv) (hf : vm.walk p = some f) (hp : p.length < 3) (k : Fin 4) :
    vm.p1 k ≠ f :=
  hinv.tree.ne_of_length_ne (by simp [areaPath]) hp.le (hinv.wired k) hf (by
    simp only [areaPath, List.length_cons, List.length_nil]
    omega)

/-- Pointing a window elsewhere leaves the tables above the leaves alone. -/
theorem Inv.mem_setWindow (hinv : vm.Inv) (hf : vm.walk p = some f) (hp : p.length < 3)
    {w : PageTableEntry} : (vm.setWindow s w).mem f i = vm.mem f i := by
  simp only [setWindow, setEntry, Store.set_of_ne vm.mem s.2 w (hinv.p1_ne hf hp s.1).symm]

/-- Overwriting an unused entry above the leaves moves no window. -/
theorem Inv.wired_setEntry (hinv : vm.Inv) (hunused : (vm.mem f i).frame = none)
    (w : PageTableEntry) : (vm.setEntry f i w).Wired :=
  fun k => walk_set_of_unused hunused w (hinv.wired k)

theorem shows_setEntry (vm : Vm) (hne : vm.p1 s.1 ≠ f) (w : PageTableEntry) :
    (vm.setEntry f i w).Shows s g ↔ vm.Shows s g := by
  simp only [Shows, entry, setEntry, Store.set_of_ne vm.mem i w hne]

theorem setEntry_setEntry (v w : PageTableEntry) :
    (vm.setEntry f i v).setEntry f i w = vm.setEntry f i w := by
  simp only [setEntry, Store.set_set]

/-- Changing a window changes nothing above the leaves. -/
theorem Inv.agree_setWindow (hinv : vm.Inv) (s : Window) (w : PageTableEntry) :
    AgreeAbove PageTableEntry.frame vm.mem (vm.setWindow s w).mem vm.cr3 3 := by
  refine hinv.tree.agreeAbove fun f hne => ⟨areaPath s.1, rfl, ?_⟩
  obtain rfl : f = vm.p1 s.1 := by
    by_contra hf
    exact hne (Store.set_of_ne vm.mem s.2 w hf)
  exact hinv.wired s.1

theorem Inv.wired_setWindow (hinv : vm.Inv) (s : Window) (w : PageTableEntry) :
    (vm.setWindow s w).Wired :=
  fun k => ((hinv.agree_setWindow s w).walk_eq (by simp [areaPath])).trans (hinv.wired k)

/-- A window and a table above the leaves are changed independently. -/
theorem setEntry_setWindow (hne : vm.p1 s.1 ≠ f) (v w : PageTableEntry) :
    (vm.setEntry f i w).setWindow s v = (vm.setWindow s v).setEntry f i w := by
  simp only [setWindow, setEntry]
  rw [Store.set_comm _ _ _ _ _ hne]

theorem shows_setWindow_self (vm : Vm) (s : Window) {v : PageTableEntry} (hv : v.present = true) :
    (vm.setWindow s v).Shows s v.addr := by
  simp [Shows, entry, setWindow, setEntry, hv]

theorem remap_window (vm : Vm) (hinj : Function.Injective vm.p1) (s : Window) (g : PhysFrame) :
    vm.remap s.page g =
      .ok (vm.setWindow s (VCache.remapEntry (vm.entry s) g)) := by
  simp only [remap, Window.page, VCache.remap_slotPage, except_ok_bind, unwrap_some]
  congr 1
  have hmem := withVCache_mem_set hinj (vm.vcache.setSlot s
    (VCache.remapEntry (vm.entry s) g)) rfl
  simp only [setWindow, setEntry]
  rw [← hmem]
  rfl

end Vm

open Vm

/-! ## One level of the descent -/

theorem tableFlags_spec (page : Page) :
    (tableFlags page).contains .PRESENT = true ∧ (tableFlags page).contains .HUGE_PAGE = false := by
  unfold tableFlags
  split_ifs <;> decide

section EnsureAllocated

variable {vm : Vm} {f : PhysFrame} {i : Fin 512} {p : List (Fin 512)} {e s : Window}

/-- `alloc_substruct` on an unused entry: it asks for a frame and stores it, or panics without one.
-/
theorem allocSubstruct_eq (hinv : vm.Inv) (hf : vm.walk p = some f) (hp : p.length < 3)
    (he : vm.Shows e f) (hunused : vm.mem f i = 0) {flags : PageTableFlags}
    (hflags : flags.contains .HUGE_PAGE = false) :
    allocSubstruct vm ⟨e.page, i⟩ flags false =
      .acquire fun
        | none => .fail .outOfFrames
        | some g => .pure (g, vm.setEntry f i (.ofFrame g flags)) := by
  have hnone : (vm.mem f i).frame = none := by rw [hunused, PageTableEntry.frame_zero]
  have hshow := (shows_setEntry (i := i) vm (hinv.p1_ne hf hp e.1) 0).mpr he
  unfold allocSubstruct AllocProg.get
  rw [acquire_bind]
  congr 1
  funext r
  cases r with
  | none => rfl
  | some g =>
    have hset : PageTableEntry.setFrame g flags = .ok (.ofFrame g flags) :=
      PageTableEntry.setFrame_eq_ok.mpr ⟨hflags, rfl⟩
    -- the entry is cleared and then set, which comes to one store
    have hsecond := (hinv.wired_setEntry hnone 0).write_window hshow i (.ofFrame g flags)
    simp only [Bool.false_eq_true, if_false, liftM_ok, mk_pure_bind, hset,
      hinv.wired.write_window he, hsecond, setEntry_setEntry]
    rfl

/-- The new table is linked, and not cleared yet, while its entry is read back and the window
moves to it. -/
private theorem attach_table (hinv : vm.Inv) (hf : vm.walk p = some f) (hp : p.length < 3)
    (he : vm.Shows e f) (hunused : vm.mem f i = 0) (s : Window) (g : PhysFrame)
    (w : PageTableEntry) :
    (vm.setEntry f i w).read e.page i = .ok w ∧
      (vm.setEntry f i w).remap s.page g = .ok ((vm.setWindow s
        (VCache.remapEntry (vm.entry s) g)).setEntry f i w) ∧
      ((vm.setWindow s (VCache.remapEntry (vm.entry s) g)).setEntry f i w).clear
        s.page = .ok ((vm.setWindow s
          (VCache.remapEntry (vm.entry s) g)).linkTable f i w g) := by
  have hne := hinv.p1_ne hf hp
  have hnone : (vm.mem f i).frame = none := by rw [hunused, PageTableEntry.frame_zero]
  -- the window is pointed at the new table before the table is cleared through it
  generalize hv : VCache.remapEntry (vm.entry s) g = v
  -- reading back, moving the window, and clearing through it
  refine ⟨?_, ?_, ?_⟩
  · rw [(hinv.wired_setEntry hnone w).read_window ((shows_setEntry vm (hne e.1) w).mpr he) i]
    simp [setEntry]
  · rw [remap_window (vm.setEntry f i w) hinv.p1_injective, ← setEntry_setWindow (hne s.1), ← hv]
    simp only [entry, setEntry, Store.set_of_ne vm.mem i w (hne s.1)]
  · have hnone' : ((vm.setWindow s v).mem f i).frame = none := by
      rw [hinv.mem_setWindow hf hp, hnone]
    have hwired : ((vm.setWindow s v).setEntry f i w).Wired := fun k =>
      walk_set_of_unused hnone' w (hinv.wired_setWindow s v k)
    have hshows : ((vm.setWindow s v).setEntry f i w).Shows s g := by
      have hself := shows_setWindow_self vm s
        (VCache.present_remapEntry (vm.entry s) g)
      rw [VCache.addr_remapEntry, hv] at hself
      exact (shows_setEntry (vm.setWindow s v) (hne s.1) w).mpr hself
    rw [hwired.clear_window hshows]
    rfl

/-- What one level of the descent computes: the window `s` shows the table behind entry `i` of
`f`, which is allocated, linked and cleared when the entry was unused. -/
theorem ensureAllocated_eq (hinv : vm.Inv) (hf : vm.walk p = some f) (hp : p.length < 3)
    (he : vm.Shows e f) (page : Page) (s : Window) :
    ensureAllocated vm ⟨e.page, i⟩ page s.page =
      if vm.mem f i = 0 then
        .acquire fun
          | none => .fail .outOfFrames
          | some g => .pure ((vm.setWindow s
              (VCache.remapEntry (vm.entry s) g)).linkTable f i
                (.ofFrame g (tableFlags page)) g)
      else
        match (vm.mem f i).frame with
        | none => .fail .entryFrame
        | some g => .pure (vm.setWindow s (VCache.remapEntry (vm.entry s) g)) := by
  unfold ensureAllocated allocateIfUnused
  simp only [hinv.wired.read_window he, liftM_ok, mk_pure_bind, PageTableEntry.isUnused, beq_iff_eq]
  -- an unused entry is given a table; any other entry has to lead to one
  split_ifs with hunused
  · rw [allocSubstruct_eq hinv hf hp he hunused (tableFlags_spec page).2]
    simp only [acquire_bind]
    congr 1
    funext r
    cases r with
    | none => rfl
    | some g =>
      have hframe := PageTableEntry.frame_ofFrame g (tableFlags_spec page).1
        (tableFlags_spec page).2
      obtain ⟨hread, hremap, hclear⟩ := attach_table hinv hf hp he hunused s g
        (.ofFrame g (tableFlags page))
      simp only [mk_pure_bind, pure_bind', hread, liftM_ok, hframe, unwrap_some, hremap, hclear,
        if_true]
  · simp only [pure_bind', hinv.wired.read_window he, liftM_ok, mk_pure_bind]
    cases hframe : (vm.mem f i).frame with
    | none => rfl
    | some g =>
      simp only [unwrap_some, liftM_ok, mk_pure_bind, remap_window vm hinv.p1_injective,
        Bool.false_eq_true, if_false]
      rfl

end EnsureAllocated

/-! ## What the steps preserve -/

/-- A step from `vm` to `vm'` that takes the frames `F \ F'` from the pool and changes the
translation of the pages `P`, outside the area of the virtual cache. -/
structure Evolves (vm vm' : Vm) (F F' : Set PhysFrame) (P : Set Page) : Prop where
  cr3 : vm'.cr3 = vm.cr3
  p1 : vm'.p1 = vm.p1
  p4table : vm'.p4table = vm.p4table
  inv : vm'.Inv
  walk : ∀ p f, p.length ≤ 3 → vm.walk p = some f → vm'.walk p = some f
  translate : ∀ q, ¬ InArea q → q ∉ P → vm'.translate q = vm.translate q
  free : F' ⊆ F
  tables : vm'.tables ⊆ vm.tables ∪ (F \ F')
  clean : vm.Clean → vm'.Clean

/-- The bookkeeping of the virtual cache stays, and so does every window outside `W`. -/
structure KeepsWindows (vm vm' : Vm) (W : Set Window) : Prop where
  state : vm'.vcacheState = vm.vcacheState
  entries : ∀ s ∉ W, vm'.entry s = vm.entry s
  present : ∀ s ∈ W, (vm.entry s).present = true → (vm'.entry s).present = true

section Composition

variable {vm vm' vm'' : Vm} {F F' F'' : Set PhysFrame} {P P' : Set Page} {W : Set Window}

theorem Evolves.refl (hinv : vm.Inv) (F : Set PhysFrame) : Evolves vm vm F F P :=
  ⟨rfl, rfl, rfl, hinv, fun _ _ _ h => h, fun _ _ _ => rfl, subset_rfl,
    Set.subset_union_left, id⟩

theorem Evolves.tables_subset (h : Evolves vm vm' F F' P) : vm.tables ⊆ vm'.tables := by
  rintro f ⟨p, hp, hwalk⟩
  exact mem_tables_of_walk (h.walk p f hp hwalk) hp

/-- Taking a frame away from the free ones leaves virtual memory alone. -/
theorem Evolves.take (hinv : vm.Inv) (hF : F' ⊆ F) : Evolves vm vm F F' P :=
  { Evolves.refl hinv F with free := hF, tables := Set.subset_union_left }

/-- Steps compose: the pages that change are those of either step, and a new table comes from the
frames that were free at the start. -/
theorem Evolves.trans (h : Evolves vm vm' F F' P) (h' : Evolves vm' vm'' F' F'' P') :
    Evolves vm vm'' F F'' (P ∪ P') where
  cr3 := h'.cr3.trans h.cr3
  p1 := h'.p1.trans h.p1
  p4table := h'.p4table.trans h.p4table
  inv := h'.inv
  walk p f hp hw := h'.walk p f hp (h.walk p f hp hw)
  translate q hq hP := (h'.translate q hq fun hq' => hP (.inr hq')).trans
    (h.translate q hq fun hq' => hP (.inl hq'))
  free := h'.free.trans h.free
  tables := by
    intro f hf
    rcases h'.tables hf with hf | ⟨hF', hF''⟩
    · rcases h.tables hf with hf | ⟨hF, hF'⟩
      · exact .inl hf
      · exact .inr ⟨hF, fun hmem => hF' (h'.free hmem)⟩
    · exact .inr ⟨h.free hF', hF''⟩
  clean := h'.clean ∘ h.clean

theorem Evolves.mono {P' : Set Page} (h : Evolves vm vm' F F' P) (hP : P ⊆ P') :
    Evolves vm vm' F F' P' :=
  { h with translate := fun q hq hq' => h.translate q hq fun hmem => hq' (hP hmem) }

/-- The pool never comes to hold a table. -/
theorem Evolves.fresh (h : Evolves vm vm' F F' P) (hF : Disjoint F vm.tables) :
    Disjoint F' vm'.tables := by
  refine Set.disjoint_left.mpr fun f hf hmem => ?_
  rcases h.tables hmem with hmem | ⟨-, hnot⟩
  · exact Set.disjoint_left.mp hF (h.free hf) hmem
  · exact hnot hf

theorem KeepsWindows.open (h : KeepsWindows vm vm' W) {s : Window} (hs : s ∉ W) {f : PhysFrame}
    (ho : vm.Open s f) : vm'.Open s f := by
  refine ⟨?_, h.state ▸ ho.2⟩
  rw [Vm.Shows, h.entries s hs]
  exact ho.1

theorem KeepsWindows.refl : KeepsWindows vm vm W := ⟨rfl, fun _ _ => rfl, fun _ _ => id⟩

theorem KeepsWindows.trans (h : KeepsWindows vm vm' W) (h' : KeepsWindows vm' vm'' W) :
    KeepsWindows vm vm'' W :=
  ⟨h'.state.trans h.state, fun s hs => (h'.entries s hs).trans (h.entries s hs),
    fun s hs => h'.present s hs ∘ h.present s hs⟩

theorem KeepsWindows.mono {W' : Set Window} (h : KeepsWindows vm vm' W) (hW : W ⊆ W') :
    KeepsWindows vm vm' W' := by
  refine ⟨h.state, fun s hs => h.entries s fun hmem => hs (hW hmem), fun s _ hp => ?_⟩
  by_cases hs : s ∈ W
  · exact h.present s hs hp
  · rw [h.entries s hs]
    exact hp

end Composition

/-! ## The three kinds of change -/

section Changes

variable {vm : Vm} {F : Set PhysFrame} {s : Window}

/-- Leaf tables that change without moving the window of the root. Above the leaves the memories
agree, so that walks, and with them the invariant, are as before; translations change only where a
leaf entry does. -/
theorem evolves_of_agree {vm' : Vm} {P : Set Page} (hinv : vm.Inv) (hcr3 : vm'.cr3 = vm.cr3)
    (hp1 : vm'.p1 = vm.p1) (hp4 : vm'.p4table = vm.p4table)
    (hagree : AgreeAbove PageTableEntry.frame vm.mem vm'.mem vm.cr3 3)
    (hroot : ∀ s, vm.p4table = s.page → vm.Open s vm.cr3 → vm'.Open s vm.cr3)
    (hleaf : ∀ q t, ¬ InArea q → q ∉ P → vm.walk q.path = some t →
      vm'.mem t q.p1Index = vm.mem t q.p1Index) :
    Evolves vm vm' F F P where
  cr3 := hcr3
  p1 := hp1
  p4table := hp4
  inv := by
    -- the upper three levels are the same, so that every walk ends where it did
    obtain ⟨r, hr, hopen⟩ := hinv.root
    refine ⟨hcr3 ▸ hagree.isTree hinv.tree, fun i => ?_, r, hp4.trans hr, hcr3 ▸ hroot r hr hopen⟩
    rw [Vm.walk, hcr3, hagree.walk_eq (by simp [areaPath]), hp1]
    exact hinv.wired i
  walk p f hp hw := by rw [Vm.walk, hcr3, hagree.walk_eq hp]; exact hw
  translate q hq hP := by
    rw [Vm.translate, Vm.translate, hcr3, hagree.stop_eq q.path_length (hleaf q · hq hP)]
  free := subset_rfl
  tables := by
    rw [Vm.tables, hcr3, hagree.tables_eq]
    exact Set.subset_union_left
  clean hclean p f i hp hw := by
    rw [Vm.walk, hcr3, hagree.walk_eq hp.le] at hw
    rw [hagree p f hp hw]
    exact hclean p f i hp hw

/-- The P1 table of a page outside the area is none of the windows' tables. -/
theorem Vm.Inv.p1_ne_leaf (hinv : vm.Inv) {q : Page} {t : PhysFrame} (hq : ¬ InArea q)
    (hw : vm.walk q.path = some t) (i : Fin 4) : t ≠ vm.p1 i := by
  rintro rfl
  exact hq (inArea_of_path (hinv.tree q.path (areaPath i) _ q.path_length.le
    (by simp [areaPath]) hw (hinv.wired i)))

theorem evolves_setWindow (hinv : vm.Inv) (hs : vm.p4table ≠ s.page) {v : PageTableEntry}
    (hv : v.present = true) :
    Evolves vm (vm.setWindow s v) F F ∅ ∧ KeepsWindows vm (vm.setWindow s v) {s} := by
  have hkeep : KeepsWindows vm (vm.setWindow s v) {s} := by
    refine ⟨rfl, fun t ht => ?_, ?_⟩
    · simp only [Vm.entry, Vm.setWindow, Vm.setEntry, Store.set_apply, hinv.p1_injective.eq_iff]
      rw [if_neg fun h => ht (Prod.ext h.1 h.2)]
    · rintro t rfl -
      exact (shows_setWindow_self vm t hv).1
  refine ⟨evolves_of_agree hinv rfl rfl rfl (hinv.agree_setWindow s v) ?_ ?_, hkeep⟩
  · intro r hr hopen
    refine hkeep.open ?_ hopen
    rintro rfl
    exact hs hr
  · intro q t hq _ hw
    exact congrFun (Store.set_of_ne vm.mem s.2 v (hinv.p1_ne_leaf hq hw s.1)) _

theorem Vm.Inv.agree_setLeaf (hinv : vm.Inv) {page : Page} {t : PhysFrame}
    (ht : vm.walk page.path = some t) (w : PageTableEntry) :
    AgreeAbove PageTableEntry.frame vm.mem (vm.setEntry t page.p1Index w).mem vm.cr3 3 := by
  refine hinv.tree.agreeAbove fun f hne => ⟨page.path, page.path_length, ?_⟩
  obtain rfl : f = t := by
    by_contra hf
    exact hne (Store.set_of_ne vm.mem page.p1Index w hf)
  exact ht

/-- The second kind of change: the leaf entry of a page is set, and decides its translation. -/
theorem evolves_setLeaf (hinv : vm.Inv) {page : Page} (hpage : ¬ InArea page) {t : PhysFrame}
    (ht : vm.walk page.path = some t) (w : PageTableEntry) :
    Evolves vm (vm.setEntry t page.p1Index w) F F {page} ∧
      KeepsWindows vm (vm.setEntry t page.p1Index w) ∅ ∧
      (vm.setEntry t page.p1Index w).translate page = resolve (w, []) := by
  have hagree := hinv.agree_setLeaf ht w
  have hkeep : KeepsWindows vm (vm.setEntry t page.p1Index w) ∅ := by
    refine ⟨rfl, fun s _ => ?_, fun s hs => hs.elim⟩
    simp only [Vm.entry, Vm.setEntry,
      Store.set_of_ne vm.mem page.p1Index w (hinv.p1_ne_leaf hpage ht s.1).symm]
  refine ⟨evolves_of_agree hinv rfl rfl rfl hagree
    (fun s _ => hkeep.open (Set.notMem_empty s)) ?_, hkeep, ?_⟩
  · intro q t' _ hP hw
    simp only [Vm.setEntry, Store.set_apply]
    rw [if_neg]
    -- in a tree the table and the index determine the page
    rintro ⟨rfl, hindex⟩
    have hpath := hinv.tree q.path page.path t' q.path_length.le page.path_length.le hw ht
    exact hP (Page.eq_of_path_eq hpath hindex)
  · have hw' : (vm.setEntry t page.p1Index w).walk page.path = some t :=
      (hagree.walk_eq page.path_length.le).trans ht
    rw [Vm.translate, stop_of_walk hw']
    simp [Vm.setEntry]

/-- Linking a fresh, cleared table changes no translation. -/
theorem Vm.translate_linkTable (htree : IsTree PageTableEntry.frame vm.mem vm.cr3 3)
    {p : List (Fin 512)} {f g : PhysFrame} {i : Fin 512} {w : PageTableEntry}
    (hsite : LinkSite PageTableEntry.frame vm.mem vm.cr3 3 p f i w g 0)
    (hunused : vm.mem f i = 0) (q : Page) :
    (vm.linkTable f i w g).translate q = vm.translate q := by
  rcases hsite.stop_eq_or htree q.path_length q.p1Index with hsame | ⟨hold, hnew⟩
  · exact congrArg resolve hsame
  · -- before, the walk ended on the unused word; now it ends in the cleared table
    have hbefore : vm.translate q = none := by
      rw [Vm.translate, ← Prod.mk.eta (p := stop _ _ _ _ _), hold, hunused]
      exact resolve_of_not_present PageTableEntry.present_zero _
    have hafter : (vm.linkTable f i w g).translate q = none := by
      rw [Vm.translate, ← Prod.mk.eta (p := stop _ _ _ _ _)]
      simp only [Vm.linkTable, hnew]
      exact resolve_of_not_present PageTableEntry.present_zero _
    rw [hbefore, hafter]

/-- The third kind of change: a fresh table is linked behind an unused entry. No translation
changes, and the frame is taken from the pool. -/
theorem evolves_linkTable (hinv : vm.Inv) {p : List (Fin 512)} {f g : PhysFrame} {i : Fin 512}
    {w : PageTableEntry}
    (hsite : LinkSite PageTableEntry.frame vm.mem vm.cr3 3 p f i w g 0)
    (hunused : vm.mem f i = 0) (hg : g ∈ F) :
    Evolves vm (vm.linkTable f i w g) F (F \ {g}) ∅ ∧
      KeepsWindows vm (vm.linkTable f i w g) ∅ := by
  -- the new table is no P1 table of the cache, and neither is its parent
  have hkeep : KeepsWindows vm (vm.linkTable f i w g) ∅ := by
    refine ⟨rfl, fun s _ => ?_, fun s hs => hs.elim⟩
    have hfresh : vm.p1 s.1 ≠ g := hsite.ne_fresh (by simp [areaPath]) (hinv.wired s.1)
    have hne : vm.p1 s.1 ≠ f := hinv.p1_ne hsite.at_path hsite.depth s.1
    simp only [Vm.entry, Vm.linkTable]
    rw [link_apply_of_ne hfresh, if_neg fun h => hne h.1]
  obtain ⟨r, hr, hopen⟩ := hinv.root
  refine ⟨⟨rfl, rfl, rfl, ⟨hsite.isTree hinv.tree, fun k => ?_, r, hr,
    hkeep.open (Set.notMem_empty r) hopen⟩, ?_, ?_, Set.sdiff_subset, ?_, ?_⟩, hkeep⟩
  · exact hsite.walk_of_walk (by simp [areaPath]) (hinv.wired k)
  · exact fun p' f' hp' hw => hsite.walk_of_walk hp' hw
  · exact fun q _ _ => Vm.translate_linkTable hinv.tree hsite hunused q
  · intro h hh
    rw [Vm.tables, Vm.linkTable] at hh
    simp only [hsite.tables_eq hinv.tree] at hh
    rcases hh with rfl | hh
    · exact .inr ⟨hg, fun h => h.2 rfl⟩
    · exact .inl hh
  -- entries above the leaves are unused or lead to tables, the new one included
  · intro hclean p' f' i' hp' hw'
    rcases hsite.walk_inv hinv.tree hp'.le hw' with hold | ⟨-, rfl⟩
    · simp only [Vm.linkTable]
      rw [link_apply_of_ne (hsite.ne_fresh hp'.le hold)]
      split_ifs
      · exact .inr ⟨g, hsite.points⟩
      · exact hclean p' f' i' hp' hold
    · exact .inl (Store.fill_self _ _ _ _)

end Changes

/-! ## Descending to the leaf table -/

section Descent

variable {vm vm' : Vm} {M F F' : Set PhysFrame} {p : List (Fin 512)} {f : PhysFrame}
  {i : Fin 512} {e s : Window}

/-- One level of the descent: a table is linked and the window shows it, or the window shows the
table that was there. -/
theorem ensureAllocated_cases (hinv : vm.Inv) (hf : vm.walk p = some f) (hp : p.length < 3)
    (he : vm.Shows e f) {page : Page}
    (h : Returns M (ensureAllocated vm ⟨e.page, i⟩ page s.page) F vm' F') :
    ∃ g, (vm.mem f i = 0 ∧ g ∈ F ∧ F' = F \ {g} ∧
          vm' = (vm.setWindow s (VCache.remapEntry (vm.entry s) g)).linkTable f i
            (.ofFrame g (tableFlags page)) g) ∨
        ((vm.mem f i).frame = some g ∧ F' = F ∧
          vm' = vm.setWindow s (VCache.remapEntry (vm.entry s) g)) := by
  rw [ensureAllocated_eq hinv hf hp he page s] at h
  split_ifs at h with hunused
  · rw [returns_acquire] at h
    simp only [returns_pure', returns_fail, and_false, or_false] at h
    obtain ⟨g, hg, rfl, rfl⟩ := h
    exact ⟨g, .inl ⟨hunused, hg, rfl, rfl⟩⟩
  · cases hframe : (vm.mem f i).frame with
    | none =>
      rw [hframe] at h
      exact absurd h returns_fail
    | some g =>
      rw [hframe] at h
      obtain ⟨rfl, rfl⟩ := returns_pure'.mp h
      exact ⟨g, .inr ⟨rfl, rfl, rfl⟩⟩

/-- One level down: the window `s` then shows the table behind entry `i`. -/
theorem ensureAllocated_evolves (hinv : vm.Inv) (hfresh : Disjoint F vm.tables)
    (hf : vm.walk p = some f) (hp : p.length < 3) (he : vm.Shows e f)
    (hs : vm.p4table ≠ s.page) (hage : vm.vcacheState.p1Age s.1 s.2 = 0) {page : Page}
    (h : Returns M (ensureAllocated vm ⟨e.page, i⟩ page s.page) F vm' F') :
    ∃ g, vm'.walk (p ++ [i]) = some g ∧ vm'.Open s g ∧ Evolves vm vm' F F' ∅ ∧
      KeepsWindows vm vm' {s} := by
  -- moving the window first makes the two cases alike
  have hshows : ∀ g, (vm.setWindow s (VCache.remapEntry (vm.entry s) g)).Open s g := by
    intro g
    have hself := shows_setWindow_self vm s
      (VCache.present_remapEntry (vm.entry s) g)
    rw [VCache.addr_remapEntry] at hself
    exact ⟨hself, hage⟩
  obtain ⟨g, ⟨hunused, hg, rfl, rfl⟩ | ⟨hframe, rfl, rfl⟩⟩ := ensureAllocated_cases hinv hf hp he h
  · obtain ⟨hev, hkeep⟩ := evolves_setWindow (F := F) hinv hs
      (VCache.present_remapEntry (vm.entry s) g)
    -- pointing the window at the frame leaves the unused entry alone
    have hcell : (vm.setWindow s (VCache.remapEntry (vm.entry s) g)).mem f i = 0 := by
      rw [hinv.mem_setWindow hf hp, hunused]
    have hsite : LinkSite PageTableEntry.frame
        (vm.setWindow s (VCache.remapEntry (vm.entry s) g)).mem vm.cr3 3 p f i
        (.ofFrame g (tableFlags page)) g 0 :=
      { depth := hp
        at_path := hev.walk p f hp.le hf
        unused := by rw [hcell, PageTableEntry.frame_zero]
        fresh := Set.disjoint_left.mp (hev.fresh hfresh) hg
        points := PageTableEntry.frame_ofFrame g (tableFlags_spec page).1 (tableFlags_spec page).2
        empty := PageTableEntry.frame_zero }
    obtain ⟨hev', hkeep'⟩ := evolves_linkTable (F := F) hev.inv hsite hcell hg
    refine ⟨g, hsite.walk_fresh, hkeep'.open (Set.notMem_empty s) (hshows g), ?_, ?_⟩
    · exact (hev.trans hev').mono (by simp)
    · exact hkeep.trans (hkeep'.mono (Set.empty_subset _))
  · obtain ⟨hev, hkeep⟩ := evolves_setWindow (F := F') hinv hs
      (VCache.present_remapEntry (vm.entry s) g)
    refine ⟨g, hev.walk _ _ ?_ ?_, hshows g, hev, hkeep⟩
    · rw [List.length_append, List.length_singleton]
      exact hp
    · exact walk_snoc_eq_some.mpr ⟨f, hf, hframe⟩

/-- The two temporary windows of `map`. -/
structure Temporaries (vm : Vm) (s₀ s₁ : Window) : Prop where
  ne : s₀ ≠ s₁
  notRoot₀ : vm.p4table ≠ s₀.page
  notRoot₁ : vm.p4table ≠ s₁.page
  age₀ : vm.vcacheState.p1Age s₀.1 s₀.2 = 0
  age₁ : vm.vcacheState.p1Age s₁.1 s₁.2 = 0

theorem Temporaries.of_keeps {s₀ s₁ : Window} {W : Set Window} {P : Set Page}
    (h : Temporaries vm s₀ s₁) (hev : Evolves vm vm' F F' P) (hkeep : KeepsWindows vm vm' W) :
    Temporaries vm' s₀ s₁ :=
  ⟨h.ne, hev.p4table ▸ h.notRoot₀, hev.p4table ▸ h.notRoot₁, hkeep.state ▸ h.age₀,
    hkeep.state ▸ h.age₁⟩

theorem leafFlags_contains_present (num : ℕ) (flags : PageTableFlags) :
    (leafFlags num flags).contains .PRESENT = true :=
  PageTableFlags.or_contains_right _ _

/-- The parts of an iteration that returns: three levels of the descent, and the entry. -/
theorem mapPage_cases {page tmp0 tmp1 : Page} {frame : PhysFrame} {flags flags' : PageTableFlags}
    (h : Returns M (mapPage vm page frame flags tmp0 tmp1) F (flags', vm') F') :
    flags' = leafFlags page.num flags ∧ ∃ vm₁ F₁ vm₂ F₂ vm₃,
      Returns M (ensureAllocated vm ⟨vm.p4table, page.p4Index⟩ page tmp0) F vm₁ F₁ ∧
      Returns M (ensureAllocated vm₁ ⟨tmp0, page.p3Index⟩ page tmp1) F₁ vm₂ F₂ ∧
      Returns M (ensureAllocated vm₂ ⟨tmp1, page.p2Index⟩ page tmp0) F₂ vm₃ F' ∧
      vm₃.write tmp0 page.p1Index (.ofFrame frame (leafFlags page.num flags)) = .ok vm' := by
  simp only [mapPage, returns_bind, returns_lift, returns_pure] at h
  obtain ⟨vm₁, F₁, h₁, vm₂, F₂, h₂, vm₃, F₃, h₃, w, F₄, ⟨hw, rfl⟩, vm₄, F₅, ⟨hwrite, rfl⟩, h₄,
    rfl⟩ := h
  rw [Prod.mk.injEq] at h₄
  obtain ⟨rfl, rfl⟩ := h₄
  obtain ⟨-, rfl⟩ := PageTableEntry.setFrame_eq_ok.mp hw
  exact ⟨rfl, vm₁, F₁, vm₂, F₂, vm₃, h₁, h₂, h₃, hwrite⟩

/-- One iteration of the loop of `map` sets the translation of its page. -/
theorem mapPage_evolves {s₀ s₁ : Window} {page : Page} {frame : PhysFrame}
    {flags flags' : PageTableFlags} (hinv : vm.Inv) (hfresh : Disjoint F vm.tables)
    (htmp : Temporaries vm s₀ s₁) (hpage : ¬ InArea page)
    (h : Returns M (mapPage vm page frame flags s₀.page s₁.page) F (flags', vm') F') :
    flags' = leafFlags page.num flags ∧ Evolves vm vm' F F' {page} ∧
      KeepsWindows vm vm' {s₀, s₁} ∧ vm'.translate page = some ⟨frame, flags'⟩ := by
  obtain ⟨r, hr, hroot⟩ := hinv.root
  obtain ⟨rfl, vm₁, F₁, vm₂, F₂, vm₃, h₁, h₂, h₃, hwrite⟩ := mapPage_cases h
  rw [hr] at h₁
  -- P4 through the window of the root, then P3, P2 and P1 through the two temporary ones
  obtain ⟨g₁, hw₁, ho₁, hev₁, hk₁⟩ := ensureAllocated_evolves (p := []) hinv hfresh rfl
    (by decide) hroot.1 htmp.notRoot₀ htmp.age₀ h₁
  have htmp₁ := htmp.of_keeps hev₁ hk₁
  obtain ⟨g₂, hw₂, ho₂, hev₂, hk₂⟩ := ensureAllocated_evolves hev₁.inv (hev₁.fresh hfresh) hw₁
    (by simp) ho₁.1 htmp₁.notRoot₁ htmp₁.age₁ h₂
  have hev₁₂ := hev₁.trans hev₂
  have htmp₂ := htmp₁.of_keeps hev₂ hk₂
  obtain ⟨g₃, hw₃, ho₃, hev₃, hk₃⟩ := ensureAllocated_evolves hev₂.inv (hev₁₂.fresh hfresh) hw₂
    (by simp) ho₂.1 htmp₂.notRoot₀ htmp₂.age₀ h₃
  rw [hev₃.inv.wired.write_window ho₃.1] at hwrite
  cases hwrite
  obtain ⟨hev₄, hk₄, htrans⟩ := evolves_setLeaf (F := F') hev₃.inv hpage (t := g₃) hw₃
    (.ofFrame frame (leafFlags page.num flags))
  refine ⟨rfl, ((hev₁₂.trans hev₃).trans hev₄).mono (by simp), ?_, ?_⟩
  · have hsub₀ : ({s₀} : Set Window) ⊆ {s₀, s₁} := by simp
    have hsub₁ : ({s₁} : Set Window) ⊆ {s₀, s₁} := by simp
    exact (((hk₁.mono hsub₀).trans (hk₂.mono hsub₁)).trans (hk₃.mono hsub₀)).trans
      (hk₄.mono (Set.empty_subset _))
  · rw [htrans, resolve, PageTableEntry.present_ofFrame, PageTableEntry.addr_ofFrame,
      PageTableEntry.flags_ofFrame, if_pos (leafFlags_contains_present _ _)]

end Descent

/-! ## The loop -/

section Loop

variable {vm vm' : Vm} {M F F' : Set PhysFrame} {page : Page} {phys : PhysFrame}
  {s₀ s₁ : Window}

/-- The flags that the loop writes in its iteration `k`, when it starts at page number `num`. -/
def flagsFrom (num : ℕ) (flags : PageTableFlags) : ℕ → PageTableFlags
  | 0 => leafFlags num flags
  | k + 1 => flagsFrom (num + 1) (leafFlags num flags) k

theorem flagsFrom_contains_present (num : ℕ) (flags : PageTableFlags) (k : ℕ) :
    (flagsFrom num flags k).contains .PRESENT = true := by
  induction k generalizing num flags with
  | zero => exact leafFlags_contains_present num flags
  | succ k ih => exact ih _ _

/-- The pages that `n` iterations from `i` on visit. -/
def visited (page : Page) (i n : ℕ) : Set Page :=
  {q | ∃ k, i ≤ k ∧ k < i + n ∧ page.add k = .ok q}

/-- The loop cannot enter the area of the virtual cache: the page before it does not exist. -/
theorem not_inArea_succ {i : ℕ} {q q' : Page} (hq : page.add i = .ok q)
    (hq' : page.add (i + 1) = .ok q') (hout : ¬ InArea q) : ¬ InArea q' := by
  have hcanonical := q.canonical
  rw [Page.add_eq_ok] at hq hq'
  simp only [InArea, kvmspace] at hout ⊢
  omega

theorem not_inArea_add_zero (hpage : ¬ InArea page) (q : Page) (hq : page.add 0 = .ok q) :
    ¬ InArea q := by
  rw [Page.add_zero, Except.ok.injEq] at hq
  exact hq ▸ hpage

/-- A run of the loop, by composition of its iterations. It changes the translation of its own pages
and the entries of the two temporary windows, and leaves behind a mapping for each page. -/
theorem mapPages_evolves {n i : ℕ} {flags : PageTableFlags} (hinv : vm.Inv)
    (hfresh : Disjoint F vm.tables) (htmp : Temporaries vm s₀ s₁)
    (hout : ∀ q, page.add i = .ok q → ¬ InArea q)
    (h : Returns M (mapPages page phys s₀.page s₁.page n i flags vm) F vm' F') :
    Evolves vm vm' F F' (visited page i n) ∧ KeepsWindows vm vm' {s₀, s₁} ∧
      ∀ k < n, ∃ q f, page.add (i + k) = .ok q ∧ phys.add (i + k) = .ok f ∧ ¬ InArea q ∧
        vm'.translate q = some ⟨f, flagsFrom (page.num + i) flags k⟩ := by
  -- induction on the iterations; the flags of one iteration are handed to the next
  induction n generalizing i flags vm F with
  | zero =>
    obtain ⟨rfl, rfl⟩ := returns_pure.mp h
    exact ⟨.refl hinv _, .refl, fun k hk => absurd hk (Nat.not_lt_zero k)⟩
  | succ n ih =>
    simp only [mapPages, returns_bind, returns_lift, Prod.exists] at h
    obtain ⟨q, F₁, ⟨hq, rfl⟩, f, F₂, ⟨hf, rfl⟩, flags₁, vm₁, F₃, hone, hrest⟩ := h
    obtain ⟨rfl, hev, hkeep, htrans⟩ := mapPage_evolves hinv hfresh htmp (hout q hq) hone
    have hnum : q.num = page.num + i := Page.add_eq_ok.mp hq
    have hout' : ∀ q', page.add (i + 1) = .ok q' → ¬ InArea q' := fun q' hq' =>
      not_inArea_succ hq hq' (hout q hq)
    obtain ⟨hev', hkeep', hpages⟩ :=
      ih hev.inv (hev.fresh hfresh) (htmp.of_keeps hev hkeep) hout' hrest
    refine ⟨(hev.trans hev').mono ?_, hkeep.trans hkeep', ?_⟩
    · rintro x (rfl | ⟨k, hk, hk', hx⟩)
      · exact ⟨i, le_rfl, by omega, hq⟩
      · exact ⟨k, by omega, by omega, hx⟩
    · intro k hk
      cases k with
      | zero =>
        refine ⟨q, f, hq, hf, hout q hq, ?_⟩
        -- later iterations visit other pages
        rw [hev'.translate q (hout q hq), htrans, hnum]
        · rfl
        · rintro ⟨k, hk, -, hx⟩
          rw [Page.add_eq_ok] at hx
          omega
      | succ k =>
        obtain ⟨q', f', hq', hf', harea, htrans'⟩ := hpages k (by omega)
        rw [show i + (k + 1) = i + 1 + k by omega]
        refine ⟨q', f', hq', hf', harea, ?_⟩
        rw [htrans', hnum, flagsFrom]
        rfl

end Loop

/-! ## The whole call -/

section Call

variable {vm vm' : Vm} {M F F' : Set PhysFrame} {page : Page} {phys : PhysFrame}

theorem entry_withVCache (hinv : vm.Inv) (vc : VCache) (s : Window) :
    (vm.withVCache vc).entry s = vc.p1 s.1 s.2 :=
  congrFun (withVCache_mem_p1 hinv.p1_injective vc s.1) s.2

theorem Vm.Inv.agree_withVCache (hinv : vm.Inv) (vc : VCache) :
    AgreeAbove PageTableEntry.frame vm.mem (vm.withVCache vc).mem vm.cr3 3 := by
  refine hinv.tree.agreeAbove fun f hne => ?_
  by_contra hnone
  refine hne (withVCache_mem_of_ne fun i hi => ?_)
  exact hnone ⟨areaPath i, rfl, hi ▸ hinv.wired i⟩

/-- Writing the virtual cache back, when the window of the root is as it was. -/
theorem evolves_withVCache (hinv : vm.Inv) {vc : VCache}
    (hroot : ∀ s : Window, vm.p4table = s.page → vm.vcache.Held s.1 s.2 →
      vc.Held s.1 s.2 ∧ vc.p1 s.1 s.2 = vm.vcache.p1 s.1 s.2) :
    Evolves vm (vm.withVCache vc) F F ∅ := by
  refine evolves_of_agree hinv rfl rfl rfl (hinv.agree_withVCache vc) ?_ ?_
  · rintro s hs ⟨⟨hpresent, haddr⟩, hage⟩
    obtain ⟨hheld, hentry⟩ := hroot s hs ⟨hpresent, hage⟩
    have hmem : (vm.withVCache vc).entry s = vm.entry s := by
      rw [entry_withVCache hinv, hentry]
      rfl
    exact ⟨⟨hmem ▸ hpresent, hmem ▸ haddr⟩, hheld.2⟩
  · intro q t hq _ hw
    rw [withVCache_mem_of_ne (hinv.p1_ne_leaf hq hw)]

/-- The windows that `map` obtains from the virtual cache: they are different, and neither is the
window of the root, which the cache does not give away. -/
theorem mapMany_temporaries (hinv : vm.Inv) {vc : VCache} {s₀ s₁ : Window}
    (h : vm.vcache.mapMany [nullFrame, nullFrame] [] = .ok (some [s₀.page, s₁.page], vc)) :
    Evolves vm (vm.withVCache vc) F F ∅ ∧ Temporaries (vm.withVCache vc) s₀ s₁ := by
  obtain ⟨vc₁, ⟨i₀, j₀, hpage₀, h₀⟩, i₁, j₁, hpage₁, h₁⟩ := VCache.mapMany_two h
  obtain rfl : s₀ = (i₀, j₀) := Window.page_injective hpage₀
  obtain rfl : s₁ = (i₁, j₁) := Window.page_injective hpage₁
  have hne : ¬ (i₀ = i₁ ∧ j₀ = j₁) := by
    rintro ⟨rfl, rfl⟩
    exact h₁.fresh h₀.held
  -- the window of the root is held, so neither of the two is it
  have hroot : ∀ s : Window, vm.p4table = s.page → vm.vcache.Held s.1 s.2 →
      s ≠ (i₀, j₀) ∧ s ≠ (i₁, j₁) ∧ vc.Held s.1 s.2 ∧ vc.p1 s.1 s.2 = vm.vcache.p1 s.1 s.2 := by
    intro s _ hheld
    have hs₀ : ¬ (s.1 = i₀ ∧ s.2 = j₀) := fun h => h₀.fresh (h.1 ▸ h.2 ▸ hheld)
    obtain ⟨hheld₁, hentry₁⟩ := h₀.keeps s.1 s.2 hs₀ hheld
    have hs₁ : ¬ (s.1 = i₁ ∧ s.2 = j₁) := fun h => h₁.fresh (h.1 ▸ h.2 ▸ hheld₁)
    obtain ⟨hheld₂, hentry₂⟩ := h₁.keeps s.1 s.2 hs₁ hheld₁
    exact ⟨fun h => hs₀ (by simp [h]), fun h => hs₁ (by simp [h]), hheld₂,
      hentry₂.trans hentry₁⟩
  obtain ⟨r, hr, ⟨hpresent, -⟩, hage⟩ := hinv.root
  obtain ⟨hr₀, hr₁, -⟩ := hroot r hr ⟨hpresent, hage⟩
  refine ⟨evolves_withVCache hinv fun s hs hheld => (hroot s hs hheld).2.2, ?_⟩
  refine ⟨fun h => hne (Prod.ext_iff.mp h), ?_, ?_, ?_, h₁.age⟩
  · rw [show (vm.withVCache vc).p4table = r.page from hr]
    exact fun h => hr₀ (Window.page_injective h)
  · rw [show (vm.withVCache vc).p4table = r.page from hr]
    exact fun h => hr₁ (Window.page_injective h)
  · exact (h₁.keeps i₀ j₀ hne h₀.held).1.2

/-- Giving up the temporary windows touches no entry, and not the window of the root. -/
theorem evolves_unmapMany (hinv : vm.Inv) {s₀ s₁ : Window} (htmp : Temporaries vm s₀ s₁)
    {vc : VCache} (h : vm.vcache.unmapMany [s₀.page, s₁.page] = .ok vc) :
    Evolves vm (vm.withVCache vc) F F ∅ := by
  simp only [VCache.unmapMany, except_bind_eq_ok, Except.ok.injEq] at h
  obtain ⟨vc₁, h₀, vc₂, h₁, rfl⟩ := h
  obtain ⟨hp₁, hage₁, -⟩ := VCache.unmap_spec h₀
  obtain ⟨hp₂, hage₂, -⟩ := VCache.unmap_spec h₁
  refine evolves_withVCache hinv fun s hs hheld => ?_
  have hs₀ : s ≠ s₀ := by rintro rfl; exact htmp.notRoot₀ hs
  have hs₁ : s ≠ s₁ := by rintro rfl; exact htmp.notRoot₁ hs
  rw [VCache.Held, hp₂, hp₁, hage₂, hage₁, Store.set_apply, Store.set_apply,
    if_neg fun h => hs₁ (Prod.ext h.1 h.2), if_neg fun h => hs₀ (Prod.ext h.1 h.2)]
  exact ⟨hheld, rfl⟩

/-- The number of pages that a mapping of `size` bytes covers. -/
def pageCount (size : ℕ) : ℕ := alignUp size pageSize / pageSize

/-- A call takes its windows, runs its loop and gives the windows up, unless it refuses its
arguments. -/
theorem map_cases {size : ℕ} {flags : PageTableFlags} {r : Except KernelMapError Unit}
    (h : Returns M (KernelMapper.map vm page phys size flags) F (r, vm') F') :
    (r ≠ .ok () ∧ (size = 0 ∨ InArea page) ∧ vm' = vm ∧ F' = F) ∨
      (r = .ok () ∧ size ≠ 0 ∧ ¬ InArea page ∧ ∃ s₀ s₁ : Window, ∃ vc vm₁ vc',
        vm.vcache.mapMany [nullFrame, nullFrame] [] = .ok (some [s₀.page, s₁.page], vc) ∧
        Returns M (mapPages page phys s₀.page s₁.page (pageCount size) 0 flags (vm.withVCache vc))
          F vm₁ F' ∧
        vm₁.vcache.unmapMany [s₀.page, s₁.page] = .ok vc' ∧ vm' = vm₁.withVCache vc') := by
  unfold KernelMapper.map at h
  -- two refusals and the call itself
  split_ifs at h with hsize harea
  · obtain ⟨hpair, rfl⟩ := returns_pure.mp h
    cases hpair
    exact .inl ⟨by simp, .inl hsize, rfl, rfl⟩
  · obtain ⟨hpair, rfl⟩ := returns_pure.mp h
    cases hpair
    exact .inl ⟨by simp, .inr harea, rfl, rfl⟩
  · -- the cache returns two pages or none, and the source unwraps them
    simp only [returns_bind, returns_lift, checkedAlignUp_eq_ok, Prod.exists] at h
    obtain ⟨size', F₁, ⟨⟨-, rfl⟩, rfl⟩, pages, vc, F₂, ⟨hmany, rfl⟩, h⟩ := h
    obtain ⟨tmp0, tmp1, rfl⟩ := VCache.mapMany_pair hmany
    simp only [returns_bind, returns_lift, returns_pure, Prod.mk.injEq] at h
    obtain ⟨vm₁, F₃, hloop, vc', F₄, ⟨hunmap, rfl⟩, ⟨rfl, rfl⟩, rfl⟩ := h
    obtain ⟨vc₁, ⟨i, j, rfl, -⟩, i', j', rfl, -⟩ := VCache.mapMany_two hmany
    exact .inr ⟨rfl, hsize, harea, (i, j), (i', j'), vc, vm₁, vc', hmany, hloop, hunmap, rfl⟩

/-- What a successful call of `map` does to virtual memory. -/
theorem map_evolves {size : ℕ} {flags : PageTableFlags} (hinv : vm.Inv)
    (hfresh : Disjoint F vm.tables)
    (h : Returns M (KernelMapper.map vm page phys size flags) F (.ok (), vm') F') :
    Evolves vm vm' F F' (visited page 0 (pageCount size)) ∧
      ∀ k < pageCount size, ∃ q f, page.add k = .ok q ∧ phys.add k = .ok f ∧ ¬ InArea q ∧
        vm'.translate q = some ⟨f, flagsFrom page.num flags k⟩ := by
  rcases map_cases h with ⟨hne, -⟩ | ⟨-, -, harea, s₀, s₁, vc, vm₁, vc', hmany, hloop, hunmap, rfl⟩
  · exact absurd rfl hne
  · obtain ⟨hev, htmp⟩ := mapMany_temporaries (F := F) hinv hmany
    obtain ⟨hev', hkeep, hpages⟩ :=
      mapPages_evolves hev.inv (hev.fresh hfresh) htmp (not_inArea_add_zero harea) hloop
    -- taking the windows, the loop, and giving the windows up
    have hev'' := evolves_unmapMany (F := F') hev'.inv (htmp.of_keeps hev' hkeep) hunmap
    refine ⟨((hev.trans hev').trans hev'').mono (by simp), fun k hk => ?_⟩
    obtain ⟨q, f, hq, hf, hq', htrans⟩ := hpages k hk
    rw [Nat.zero_add] at hq hf
    exact ⟨q, f, hq, hf, hq', (hev''.translate q hq' (Set.notMem_empty q)).trans htrans⟩

/-- **Mapper correctness.**  After a successful call every page of the range translates to its
frame, present, and every other page outside the area of the virtual cache translates as
before. -/
theorem map_translates {size : ℕ} {flags : PageTableFlags} (hinv : vm.Inv)
    (hfresh : Disjoint F vm.tables)
    (h : Returns M (KernelMapper.map vm page phys size flags) F (.ok (), vm') F') :
    (∀ k < (size + 4095) / 4096, ∃ q f translation, page.add k = .ok q ∧ phys.add k = .ok f ∧
      vm'.translate q = some translation ∧ translation.frame = f ∧
      translation.flags.contains .PRESENT = true) ∧
    ∀ q, ¬ InArea q → (∀ k < (size + 4095) / 4096, page.add k ≠ .ok q) →
      vm'.translate q = vm.translate q := by
  have hcount : pageCount size = (size + 4095) / 4096 := Nat.mul_div_cancel _ (by decide)
  obtain ⟨hev, hpages⟩ := map_evolves hinv hfresh h
  rw [hcount] at hev hpages
  constructor
  · intro k hk
    obtain ⟨q, f, hq, hf, -, htrans⟩ := hpages k hk
    exact ⟨q, f, _, hq, hf, htrans, rfl, flagsFrom_contains_present _ _ _⟩
  · intro q hq hother
    refine hev.translate q hq ?_
    rintro ⟨k, -, hk, hadd⟩
    exact hother k (by omega) hadd

end Call

end HeliumOS.Mem.Virt
