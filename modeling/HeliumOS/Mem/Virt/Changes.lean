import HeliumOS.Lib.Run
import HeliumOS.Mem.Virt.MapperCorrect

/-!
# What the Mapper Does, Change by Change

`Evolves` compares virtual memory before and after a call.  Here the call is taken apart.  All it
does, from the first iteration of its loop to the last, is a run of three kinds of changes:

- a temporary window is pointed at a frame,
- a new table, taken from the allocator and cleared, is linked into an unused entry on the way to
  the page,
- the leaf of a page is written.

A property that each of the three keeps holds in every state of the loop.  One of them is that
every frame that was taken is now a table on the way to a page of the call (`map_taken`).
-/

namespace HeliumOS.Mem.Virt

open HeliumOS.Lib HeliumOS.Lib.AllocProg HeliumOS.Lib.Radix

/-- A change, as it is written down in a trace. -/
inductive Change where
  | repoint (s : Window) (frame : PhysFrame)
  | link (page : Page) (table : PhysFrame) (index : Fin 512) (new : PhysFrame)
  | leaf (page : Page) (frame : PhysFrame) (flags : PageTableFlags)

/-- Virtual memory and the frames that the allocator may hand out. -/
abbrev VmFree := Vm × Set PhysFrame

/-- The changes that a call with the temporary windows `s₀` and `s₁` makes. -/
inductive Change.Step (s₀ s₁ : Window) : VmFree → Change → VmFree → Prop where
  | repoint {vm : Vm} {F : Set PhysFrame} {s : Window} {g : PhysFrame} :
      s = s₀ ∨ s = s₁ →
      Step s₀ s₁ (vm, F) (.repoint s g) (vm.setWindow s (VCache.remapEntry (vm.entry s) g), F)
  | link {vm : Vm} {F : Set PhysFrame} {page : Page} {p : List (Fin 512)} {f g : PhysFrame}
      {i : Fin 512} :
      vm.walk p = some f → p ++ [i] <+: page.path → vm.mem f i = 0 → g ∈ F →
      Step s₀ s₁ (vm, F) (.link page f i g)
        (vm.linkTable f i (.ofFrame g (tableFlags page)) g, F \ {g})
  | leaf {vm : Vm} {F : Set PhysFrame} {page : Page} {t frame : PhysFrame}
      {flags : PageTableFlags} :
      ¬ InArea page → vm.walk page.path = some t →
      Step s₀ s₁ (vm, F) (.leaf page frame flags)
        (vm.setEntry t page.p1Index (.ofFrame frame flags), F)

/-- What holds inside a call: the tables are in order, the allocator has none of them to give
away, and the temporary windows are apart from each other and from that of the root. -/
structure Working (s₀ s₁ : Window) (x : VmFree) : Prop where
  inv : x.1.Inv
  fresh : Disjoint x.2 x.1.tables
  tmp : Temporaries x.1 s₀ s₁

/-- The change is one that a mapping of `page` makes. -/
def Change.For (page : Page) : Change → Prop
  | .repoint _ _ => True
  | .link page' _ _ _ => page' = page
  | .leaf page' _ _ => page' = page

/-- The pages whose leaf a change writes. -/
def Change.pages : Change → Set Page
  | .leaf page _ _ => {page}
  | _ => ∅

section Changes

variable {s₀ s₁ : Window} {x x' : VmFree} {c : Change}

theorem length_lt_of_prefix_path {page : Page} {p : List (Fin 512)} {i : Fin 512}
    (h : p ++ [i] <+: page.path) : p.length < 3 := by
  have hlen := h.length_le
  rw [List.length_append, List.length_singleton, Page.path_length] at hlen
  omega

/-- Where a new table goes. -/
theorem Working.linkSite {vm : Vm} {F : Set PhysFrame} {page : Page} {p : List (Fin 512)}
    {f g : PhysFrame} {i : Fin 512} (hx : Working s₀ s₁ (vm, F)) (hwalk : vm.walk p = some f)
    (hpath : p ++ [i] <+: page.path) (hunused : vm.mem f i = 0) (hg : g ∈ F) :
    LinkSite PageTableEntry.frame vm.mem vm.cr3 3 p f i (.ofFrame g (tableFlags page)) g 0 where
  depth := length_lt_of_prefix_path hpath
  at_path := hwalk
  unused := by rw [hunused, PageTableEntry.frame_zero]
  fresh := Set.disjoint_left.mp hx.fresh hg
  points := PageTableEntry.frame_ofFrame g (tableFlags_spec page).1 (tableFlags_spec page).2
  empty := PageTableEntry.frame_zero

theorem Change.Step.evolves (h : Change.Step s₀ s₁ x c x') (hx : Working s₀ s₁ x) :
    Evolves x.1 x'.1 x.2 x'.2 c.pages ∧ KeepsWindows x.1 x'.1 {s₀, s₁} := by
  cases h with
  | @repoint vm F s g hs =>
    -- a temporary window is not the one that shows the root
    have hroot : vm.p4table ≠ s.page := by
      rcases hs with rfl | rfl
      · exact hx.tmp.notRoot₀
      · exact hx.tmp.notRoot₁
    obtain ⟨hev, hkeep⟩ := evolves_setWindow (F := F) hx.inv hroot
      (VCache.present_remapEntry (vm.entry s) g)
    refine ⟨hev, hkeep.mono ?_⟩
    rintro _ rfl
    exact hs
  | @link vm F page p f g i hwalk hpath hunused hg =>
    have hsite := hx.linkSite hwalk hpath hunused hg
    obtain ⟨hev, hkeep⟩ := evolves_linkTable (F := F) hx.inv hsite hunused hg
    exact ⟨hev, hkeep.mono (Set.empty_subset _)⟩
  | @leaf vm F page t frame flags hpage hwalk =>
    obtain ⟨hev, hkeep, -⟩ := evolves_setLeaf (F := F) hx.inv hpage hwalk (.ofFrame frame flags)
    exact ⟨hev, hkeep.mono (Set.empty_subset _)⟩

theorem Change.Step.working (h : Change.Step s₀ s₁ x c x') (hx : Working s₀ s₁ x) :
    Working s₀ s₁ x' := by
  obtain ⟨hev, hkeep⟩ := h.evolves hx
  exact ⟨hev.inv, hev.fresh hx.fresh, hx.tmp.of_keeps hev hkeep⟩

/-- Along a run of changes the mapper stays at work. -/
theorem Working.run {cs : List Change} (hx : Working s₀ s₁ x)
    (h : Run (Change.Step s₀ s₁) x cs x') :
    Working s₀ s₁ x' :=
  h.preserves hx fun _ _ _ hy hc => hc.working hy

/-- A property that every change of the run keeps. -/
theorem Working.preserves_of_mem {I : VmFree → Prop} {cs : List Change}
    (h : Run (Change.Step s₀ s₁) x cs x') (hx : Working s₀ s₁ x) (hI : I x)
    (hstep : ∀ y c y', Working s₀ s₁ y → I y → c ∈ cs → Change.Step s₀ s₁ y c y' → I y') :
    Working s₀ s₁ x' ∧ I x' :=
  h.guarded_mem.preserves (I := fun y => Working s₀ s₁ y ∧ I y) ⟨hx, hI⟩
    fun y c y' hy hc => ⟨hc.1.working hy.1, hstep y c y' hy.1 hy.2 hc.2 hc.1⟩

/-- A property that every change keeps, along a run of them. -/
theorem Working.preserves {I : VmFree → Prop} {cs : List Change}
    (h : Run (Change.Step s₀ s₁) x cs x') (hx : Working s₀ s₁ x) (hI : I x)
    (hstep : ∀ y c y', Working s₀ s₁ y → I y → Change.Step s₀ s₁ y c y' → I y') :
    Working s₀ s₁ x' ∧ I x' :=
  hx.preserves_of_mem h hI fun y c y' hy hI _ hc => hstep y c y' hy hI hc

end Changes

/-! ## The loop of `map` -/

section Loop

variable {vm vm' : Vm} {M F F' : Set PhysFrame} {s₀ s₁ : Window} {page : Page}

/-- One level down: a window is pointed at the table behind an entry, and the table is linked
first if the entry is unused. -/
theorem ensureAllocated_changes {p : List (Fin 512)} {f : PhysFrame} {i : Fin 512} {e s : Window}
    (hx : Working s₀ s₁ (vm, F)) (hs : s = s₀ ∨ s = s₁) (hf : vm.walk p = some f)
    (hp : p ++ [i] <+: page.path) (he : vm.Shows e f)
    (h : Returns M (ensureAllocated vm ⟨e.page, i⟩ page s.page) F vm' F') :
    ∃ cs, Run (Change.Step s₀ s₁) (vm, F) cs (vm', F') ∧ ∀ c ∈ cs, c.For page := by
  have hinv : vm.Inv := hx.inv
  have hlen := length_lt_of_prefix_path hp
  obtain ⟨g, ⟨hunused, hg, rfl, rfl⟩ | ⟨-, rfl, rfl⟩⟩ := ensureAllocated_cases hinv hf hlen he h
  · have hpoint : Change.Step s₀ s₁ (vm, F) (.repoint s g) _ := .repoint hs
    obtain ⟨hev, -⟩ := hpoint.evolves hx
    -- the window is not part of the table that is linked into
    have hcell : (vm.setWindow s (VCache.remapEntry (vm.entry s) g)).mem f i = 0 := by
      rw [hinv.mem_setWindow hf hlen, hunused]
    refine ⟨_, (Run.single hpoint).snoc (.link (hev.walk p f hlen.le hf) hp hcell hg), ?_⟩
    simp [Change.For]
  · exact ⟨_, .single (.repoint hs), by simp [Change.For]⟩

/-- One iteration: three times one level down, and then the leaf. -/
theorem mapPage_changes {frame : PhysFrame} {flags flags' : PageTableFlags}
    (hx : Working s₀ s₁ (vm, F))
    (h : Returns M (mapPage vm page frame flags s₀.page s₁.page) F (flags', vm') F') :
    flags' = leafFlags page.num flags ∧ ∃ cs vm₃ t, Run (Change.Step s₀ s₁) (vm, F) cs (vm₃, F') ∧
      (∀ c ∈ cs, c.For page) ∧ vm₃.walk page.path = some t ∧
      vm' = vm₃.setEntry t page.p1Index (.ofFrame frame (leafFlags page.num flags)) := by
  have hinv : vm.Inv := hx.inv
  obtain ⟨r, hr, hroot⟩ := hinv.root
  obtain ⟨rfl, vm₁, F₁, vm₂, F₂, vm₃, h₁, h₂, h₃, hwrite⟩ := mapPage_cases h
  rw [hr] at h₁
  -- the three levels of the descent, with the two windows in turn
  obtain ⟨cs₁, hrun₁, hfor₁⟩ := ensureAllocated_changes (p := []) hx (.inl rfl) rfl
    ⟨[page.p3Index, page.p2Index], rfl⟩ hroot.1 h₁
  obtain ⟨g₁, hw₁, ho₁, -⟩ := ensureAllocated_evolves (p := []) hinv hx.fresh rfl
    (by decide) hroot.1 hx.tmp.notRoot₀ hx.tmp.age₀ h₁
  have hx₁ := hx.run hrun₁
  obtain ⟨cs₂, hrun₂, hfor₂⟩ :=
    ensureAllocated_changes hx₁ (.inr rfl) hw₁ ⟨[page.p2Index], rfl⟩ ho₁.1 h₂
  obtain ⟨g₂, hw₂, ho₂, -⟩ := ensureAllocated_evolves hx₁.inv hx₁.fresh hw₁
    (by simp) ho₁.1 hx₁.tmp.notRoot₁ hx₁.tmp.age₁ h₂
  have hx₂ := hx₁.run hrun₂
  obtain ⟨cs₃, hrun₃, hfor₃⟩ := ensureAllocated_changes hx₂ (.inl rfl) hw₂ ⟨[], rfl⟩ ho₂.1 h₃
  obtain ⟨g₃, hw₃, ho₃, hev₃, -⟩ := ensureAllocated_evolves hx₂.inv hx₂.fresh hw₂
    (by simp) ho₂.1 hx₂.tmp.notRoot₀ hx₂.tmp.age₀ h₃
  rw [hev₃.inv.wired.write_window ho₃.1] at hwrite
  cases hwrite
  refine ⟨rfl, _, vm₃, g₃, (hrun₁.append hrun₂).append hrun₃, fun c hc => ?_, hw₃, rfl⟩
  rcases List.mem_append.mp hc with hc | hc
  · rcases List.mem_append.mp hc with hc | hc
    · exact hfor₁ c hc
    · exact hfor₂ c hc
  · exact hfor₃ c hc

/-- The loop of `map` is a run of changes, each for one of the pages that it visits. -/
theorem mapPages_changes {phys : PhysFrame} {n i : ℕ} {flags : PageTableFlags}
    (hx : Working s₀ s₁ (vm, F)) (hout : ∀ q, page.add i = .ok q → ¬ InArea q)
    (h : Returns M (mapPages page phys s₀.page s₁.page n i flags vm) F vm' F') :
    ∃ cs, Run (Change.Step s₀ s₁) (vm, F) cs (vm', F') ∧
      ∀ c ∈ cs, ∃ q ∈ visited page i n, c.For q := by
  induction n generalizing i flags vm F with
  | zero =>
    obtain ⟨rfl, rfl⟩ := returns_pure.mp h
    exact ⟨[], .nil _, by simp⟩
  | succ n ih =>
    simp only [mapPages, returns_bind, returns_lift, Prod.exists] at h
    obtain ⟨q, F₁, ⟨hq, rfl⟩, f, F₂, ⟨hf, rfl⟩, flags₁, vm₁, F₃, hone, hrest⟩ := h
    obtain ⟨rfl, cs, vm₃, t, hrun, hfor, ht, rfl⟩ := mapPage_changes hx hone
    -- the descent, the leaf, and then the iterations that are left
    have hleaf : Change.Step s₀ s₁ (vm₃, F₃) (.leaf q f (leafFlags q.num flags)) _ :=
      .leaf (hout q hq) ht
    have hrun' := hrun.snoc hleaf
    have hx' := hx.run hrun'
    obtain ⟨cs', hrest', hfor'⟩ := ih hx' (fun q' hq' => not_inArea_succ hq hq' (hout q hq)) hrest
    refine ⟨_, hrun'.append hrest', fun c hc => ?_⟩
    have hfirst : q ∈ visited page i (n + 1) := ⟨i, le_rfl, by omega, hq⟩
    rcases List.mem_append.mp hc with hc | hc
    · rcases List.mem_append.mp hc with hc | hc
      · exact ⟨q, hfirst, hfor c hc⟩
      · obtain rfl := List.mem_singleton.mp hc
        exact ⟨q, hfirst, rfl⟩
    · obtain ⟨q', ⟨k, hk, hk', hq'⟩, hc'⟩ := hfor' c hc
      exact ⟨q', ⟨k, by omega, by omega, hq'⟩, hc'⟩

end Loop

/-- The state in which the loop starts. -/
theorem working_of_mapMany {vm : Vm} {F : Set PhysFrame} (hinv : vm.Inv)
    (hfresh : Disjoint F vm.tables) {s₀ s₁ : Window} {vc : VCache}
    (hmany : vm.vcache.mapMany [nullFrame, nullFrame] [] = .ok (some [s₀.page, s₁.page], vc)) :
    Working s₀ s₁ (vm.withVCache vc, F) := by
  obtain ⟨hev, htmp⟩ := mapMany_temporaries (F := F) hinv hmany
  exact ⟨hev.inv, hev.fresh hfresh, htmp⟩

/-! ## Where the frames go -/

/-- The tables on the way to the pages `P`. -/
def Vm.leading (vm : Vm) (P : Set Page) : Set PhysFrame :=
  {f | ∃ q ∈ P, ∃ p, p <+: q.path ∧ vm.walk p = some f}

section Leading

variable {vm vm' : Vm} {M F F' : Set PhysFrame} {P P' : Set Page}

theorem Vm.leading_mono (hP : P ⊆ P') : vm.leading P ⊆ vm.leading P' := by
  rintro f ⟨q, hq, hwalk⟩
  exact ⟨q, hP hq, hwalk⟩

theorem Vm.leading_subset_tables (vm : Vm) (P : Set Page) : vm.leading P ⊆ vm.tables := by
  rintro f ⟨q, -, p, hp, hwalk⟩
  exact mem_tables_of_walk hwalk (q.path_length ▸ hp.length_le)

theorem Evolves.leading_subset (h : Evolves vm vm' F F' P') : vm.leading P ⊆ vm'.leading P := by
  rintro f ⟨q, hq, p, hp, hwalk⟩
  exact ⟨q, hq, p, hp, h.walk p f (q.path_length ▸ hp.length_le) hwalk⟩

/-- Two steps, one after the other, that take frames for tables on the way to `P` only. -/
theorem Evolves.taken_trans {vm'' : Vm} {F'' : Set PhysFrame} (h : F ⊆ F' ∪ vm'.leading P)
    (hev : Evolves vm' vm'' F' F'' P') (h' : F' ⊆ F'' ∪ vm''.leading P) :
    F ⊆ F'' ∪ vm''.leading P := by
  intro f hf
  rcases h hf with hfree | hlead
  · exact h' hfree
  · exact .inr (hev.leading_subset hlead)

/-- A change for a page of `P` takes no frame but for a table on the way there. -/
theorem Change.Step.taken {s₀ s₁ : Window} {x x' : VmFree} {c : Change}
    (h : Change.Step s₀ s₁ x c x') (hx : Working s₀ s₁ x) {q : Page} (hq : q ∈ P) (hc : c.For q) :
    x.2 ⊆ x'.2 ∪ x'.1.leading P := by
  cases h with
  | repoint hs => exact Set.subset_union_left
  | leaf hpage hwalk => exact Set.subset_union_left
  | @link vm F page p f g i hwalk hpath hunused hg =>
    obtain rfl : page = q := hc
    have hsite := hx.linkSite hwalk hpath hunused hg
    intro f' hf'
    by_cases heq : f' = g
    · subst heq
      exact .inr ⟨page, hq, p ++ [i], hpath, hsite.walk_fresh⟩
    · exact .inl ⟨hf', heq⟩

/-- Every frame that a call of `map` takes is a table on the way to one of its pages. -/
theorem map_taken {page : Page} {phys : PhysFrame} {size : ℕ} {flags : PageTableFlags}
    {r : Except KernelMapError Unit} (hinv : vm.Inv) (hfresh : Disjoint F vm.tables)
    (h : Returns M (KernelMapper.map vm page phys size flags) F (r, vm') F') :
    F ⊆ F' ∪ vm'.leading (visited page 0 (pageCount size)) := by
  obtain ⟨-, -, rfl, rfl⟩ | ⟨-, -, hout, s₀, s₁, vc, vm₁, vc', hmany, hloop, hunmap, rfl⟩ :=
    map_cases h
  · exact Set.subset_union_left
  · have hx := working_of_mapMany hinv hfresh hmany
    obtain ⟨cs, hrun, hfor⟩ := mapPages_changes hx (not_inArea_add_zero hout) hloop
    have hstep : ∀ y c y', Working s₀ s₁ y → F ⊆ y.2 ∪ y.1.leading
        (visited page 0 (pageCount size)) →
        c ∈ cs → Change.Step s₀ s₁ y c y' →
        F ⊆ y'.2 ∪ y'.1.leading (visited page 0 (pageCount size)) := by
      intro y c y' hy hI hmem hc
      obtain ⟨q, hq, hcq⟩ := hfor c hmem
      exact (hc.evolves hy).1.taken_trans hI (hc.taken hy hq hcq)
    obtain ⟨hx₁, htaken⟩ := hx.preserves_of_mem hrun Set.subset_union_left hstep
    -- giving up the windows takes nothing
    have hev := evolves_unmapMany (F := F') hx₁.inv hx₁.tmp hunmap
    exact hev.taken_trans htaken Set.subset_union_left

end Leading

end HeliumOS.Mem.Virt
