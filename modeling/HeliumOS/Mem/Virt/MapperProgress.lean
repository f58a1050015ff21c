import HeliumOS.Mem.Virt.MapperCorrect
import HeliumOS.Mem.Virt.VCacheCount

/-!
# Progress of the Kernel Mapper

With enough free frames `KernelMapper::map` does not panic: at most three tables are allocated
for each page, the virtual cache has two windows to spare, and no entry above the leaves stands
in the way.  The conditions hold again after the call, so that calls can follow each other.

- `Vm.Ready` is the condition on virtual memory.
- `map_returns` is the result: the call succeeds, and `map_ready` says that the condition holds
  again after it.
-/

namespace HeliumOS.Mem.Virt

open HeliumOS.Lib HeliumOS.Lib.Radix HeliumOS.Lib.AllocProg

/-- Virtual memory in which the mapper can work. -/
structure Vm.Ready (vm : Vm) : Prop where
  inv : vm.Inv
  clean : vm.Clean
  counted : vm.vcache.Counted
  room : 2 ≤ vm.vcache.unheld.card

/-! ## Budgets -/

section Budget

variable (vm : Vm) (page : Page)

/-- Linking a table takes one frame. The budgets below add up along the call structure of the
mapper, up to three frames for each page. -/
theorem allocSubstruct_atMost (entry : EntryRef) (flags : PageTableFlags) (clearInplace : Bool) :
    AtMost 1 (allocSubstruct vm entry flags clearInplace) := by
  refine AtMost.bind (n := 0) atMost_get fun r => ?_
  cases r with
  | none => simp
  | some frame =>
    exact .lift_bind fun _ _ => .lift_bind fun _ _ => .lift_bind fun _ _ => .lift_bind fun _ _ => by
      simp

theorem allocateIfUnused_atMost (entry : EntryRef) : AtMost 1 (allocateIfUnused vm entry page) := by
  refine .lift_bind fun word _ => ?_
  split_ifs
  · exact AtMost.bind (n := 0) (allocSubstruct_atMost vm entry _ false) fun _ => by simp
  · simp

theorem ensureAllocated_atMost (entry : EntryRef) (mapTo : Page) :
    AtMost 1 (ensureAllocated vm entry page mapTo) := by
  refine AtMost.bind (n := 0) (allocateIfUnused_atMost vm page entry) fun a => ?_
  refine .lift_bind fun _ _ => .lift_bind fun _ _ => .lift_bind fun _ _ => ?_
  split_ifs <;> simp

theorem mapPage_atMost (frame : PhysFrame) (flags : PageTableFlags) (tmp0 tmp1 : Page) :
    AtMost 3 (mapPage vm page frame flags tmp0 tmp1) := by
  refine AtMost.bind (m := 1) (n := 2) (ensureAllocated_atMost _ _ _ _) fun vm => ?_
  refine AtMost.bind (m := 1) (n := 1) (ensureAllocated_atMost _ _ _ _) fun vm => ?_
  refine AtMost.bind (m := 1) (n := 0) (ensureAllocated_atMost _ _ _ _) fun vm => ?_
  exact .lift_bind fun _ _ => .lift_bind fun _ _ => by simp

theorem mapPages_atMost (phys : PhysFrame) (tmp0 tmp1 : Page) (n i : ℕ) (flags : PageTableFlags) :
    AtMost (3 * n) (mapPages page phys tmp0 tmp1 n i flags vm) := by
  induction n generalizing vm i flags with
  | zero => simp [mapPages]
  | succ n ih =>
    refine .lift_bind fun q _ => .lift_bind fun f _ => ?_
    rw [Nat.mul_succ, Nat.add_comm]
    exact (mapPage_atMost vm q f flags tmp0 tmp1).bind fun a => ih _ _ _

/-- A whole call, in the pages that its size is rounded up to. The windows come from the virtual
cache, which takes no frames. -/
theorem map_atMost (phys : PhysFrame) (size : ℕ) (flags : PageTableFlags) :
    AtMost (3 * pageCount size) (KernelMapper.map vm page phys size flags) := by
  unfold KernelMapper.map
  split_ifs
  · simp
  · simp
  · refine .lift_bind fun size' hsize => .lift_bind fun windows _ => ?_
    obtain ⟨-, rfl⟩ := checkedAlignUp_eq_ok.mp hsize
    split
    · refine AtMost.bind (n := 0) (mapPages_atMost _ _ _ _ _ _ _ _) fun _ => ?_
      exact .lift_bind fun _ _ => by simp
    · simp

end Budget

/-! ## Safety -/

section Safety

variable {vm vm' : Vm} {M F F' : Set PhysFrame} {p : List (Fin 512)} {f : PhysFrame}
  {i : Fin 512} {e s s₀ s₁ : Window}

/-- One level of the descent needs one free frame, and an entry that is unused or leads to a table.
-/
theorem ensureAllocated_safe (hinv : vm.Inv) (hclean : vm.Clean) (hfree : HasFree 1 F)
    (hf : vm.walk p = some f) (hp : p.length < 3) (he : vm.Shows e f) (page : Page) (s : Window) :
    Safe M (ensureAllocated vm ⟨e.page, i⟩ page s.page) F := by
  rw [ensureAllocated_eq hinv hf hp he page s]
  split_ifs with hunused
  · exact safe_acquire.mpr ⟨fun r _ => safe_pure' _, fun hempty => absurd hempty hfree.nonempty⟩
  · rcases hclean p f i hp hf with hzero | ⟨g, hg⟩
    · exact absurd hzero hunused
    · rw [hg]
      exact safe_pure' _

theorem leafFlags_not_huge (num : ℕ) {flags : PageTableFlags}
    (h : flags.contains .HUGE_PAGE = false) :
    (leafFlags num flags).contains .HUGE_PAGE = false := by
  have hglobal : PageTableFlags.GLOBAL.bits.getLsbD 7 = false := by decide
  have hpresent : PageTableFlags.PRESENT.bits.getLsbD 7 = false := by decide
  rw [PageTableFlags.contains_huge] at h ⊢
  unfold leafFlags
  split_ifs <;>
    simp only [PageTableFlags.or_bits, PageTableFlags.remove, BitVec.getLsbD_or,
      BitVec.getLsbD_and, h, hglobal, hpresent, Bool.or_self, Bool.false_and]

/-- One iteration does not panic with three free frames: between the levels the invariant, the
windows and the budget are carried along. -/
theorem mapPage_safe {page : Page} {frame : PhysFrame} {flags : PageTableFlags} (hinv : vm.Inv)
    (hclean : vm.Clean) (hfresh : Disjoint F vm.tables) (hfree : HasFree 3 F)
    (htmp : Temporaries vm s₀ s₁) (hflags : flags.contains .HUGE_PAGE = false) :
    Safe M (mapPage vm page frame flags s₀.page s₁.page) F := by
  obtain ⟨r, hr, hroot⟩ := hinv.root
  unfold mapPage
  rw [hr]
  -- each level of the descent takes one frame at most
  refine safe_bind (ensureAllocated_safe (p := []) hinv hclean (hfree.mono (by omega)) rfl
    (by decide) hroot.1 page s₀) fun vm₁ F₁ h₁ => ?_
  obtain ⟨g₁, hw₁, ho₁, hev₁, hk₁⟩ := ensureAllocated_evolves (p := []) hinv hfresh rfl
    (by decide) hroot.1 htmp.notRoot₀ htmp.age₀ h₁
  have hfree₁ : HasFree 2 F₁ := hfree.returns (ensureAllocated_atMost _ _ _ _) h₁
  have htmp₁ := htmp.of_keeps hev₁ hk₁
  refine safe_bind (ensureAllocated_safe hev₁.inv (hev₁.clean hclean) (hfree₁.mono (by omega)) hw₁
    (by simp) ho₁.1 page s₁) fun vm₂ F₂ h₂ => ?_
  obtain ⟨g₂, hw₂, ho₂, hev₂, hk₂⟩ := ensureAllocated_evolves hev₁.inv (hev₁.fresh hfresh) hw₁
    (by simp) ho₁.1 htmp₁.notRoot₁ htmp₁.age₁ h₂
  have hfree₂ : HasFree 1 F₂ := hfree₁.returns (ensureAllocated_atMost _ _ _ _) h₂
  have htmp₂ := htmp₁.of_keeps hev₂ hk₂
  refine safe_bind (ensureAllocated_safe hev₂.inv (hev₂.clean (hev₁.clean hclean)) hfree₂ hw₂
    (by simp) ho₂.1 page s₀) fun vm₃ F₃ h₃ => ?_
  obtain ⟨g₃, hw₃, ho₃, hev₃, hk₃⟩ := ensureAllocated_evolves hev₂.inv
    ((hev₁.trans hev₂).fresh hfresh) hw₂ (by simp) ho₂.1 htmp₂.notRoot₀ htmp₂.age₀ h₃
  -- the entry of the page itself, through the first window
  have hset : PageTableEntry.setFrame frame (leafFlags page.num flags) = .ok _ :=
    PageTableEntry.setFrame_eq_ok.mpr ⟨leafFlags_not_huge page.num hflags, rfl⟩
  refine safe_lift_bind hset ?_
  exact safe_lift_bind (hev₃.inv.wired.write_window ho₃.1 _ _) (safe_pure _)

/-- The loop does not panic with three free frames for each of its pages. -/
theorem mapPages_safe {page : Page} {phys : PhysFrame} {n i : ℕ} {flags : PageTableFlags}
    (hinv : vm.Inv) (hclean : vm.Clean) (hfresh : Disjoint F vm.tables)
    (hfree : HasFree (3 * n) F) (htmp : Temporaries vm s₀ s₁)
    (hflags : flags.contains .HUGE_PAGE = false)
    (hout : ∀ q, page.add i = .ok q → ¬ InArea q)
    (hpages : ∀ k < n, ∃ q, page.add (i + k) = .ok q)
    (hframes : ∀ k < n, ∃ f, phys.add (i + k) = .ok f) :
    Safe M (mapPages page phys s₀.page s₁.page n i flags vm) F := by
  induction n generalizing i flags vm F with
  | zero => exact safe_pure _
  | succ n ih =>
    -- the ranges are shifted by one for the rest of the loop
    obtain ⟨q, hq⟩ := hpages 0 (by omega)
    obtain ⟨f, hf⟩ := hframes 0 (by omega)
    rw [Nat.add_zero] at hq hf
    simp only [mapPages, hq, hf, liftM_ok, mk_pure_bind]
    refine safe_bind (mapPage_safe hinv hclean hfresh (hfree.mono (by omega)) htmp hflags)
      fun a F₁ hone => ?_
    obtain ⟨hflags₁, hev, hkeep, -⟩ := mapPage_evolves hinv hfresh htmp (hout q hq) hone
    -- three frames for this page, and three for each of the others
    have hfree₁ : HasFree (3 * n) F₁ := by
      rw [Nat.mul_succ] at hfree
      exact hfree.returns (mapPage_atMost _ _ _ _ _ _) hone
    refine ih hev.inv (hev.clean hclean) (hev.fresh hfresh) hfree₁ (htmp.of_keeps hev hkeep)
      (hflags₁ ▸ leafFlags_not_huge _ hflags)
      (fun q' hq' => not_inArea_succ hq hq' (hout q hq)) (fun k hk => ?_) (fun k hk => ?_)
    · obtain ⟨q', hq'⟩ := hpages (k + 1) (by omega)
      exact ⟨q', by rw [← hq']; congr 1; omega⟩
    · obtain ⟨f', hf'⟩ := hframes (k + 1) (by omega)
      exact ⟨f', by rw [← hf']; congr 1; omega⟩

end Safety

/-! ## The virtual cache around a call -/

namespace VCache

variable {vc vc' : VCache}

/-- `vc'` holds the windows `s₀` and `s₁` in addition to those of `vc`. -/
structure Borrows (vc vc' : VCache) (s₀ s₁ : Window) : Prop where
  ne : s₀ ≠ s₁
  before₀ : ¬ vc.Held s₀.1 s₀.2
  before₁ : ¬ vc.Held s₁.1 s₁.2
  after₀ : vc'.Held s₀.1 s₀.2
  after₁ : vc'.Held s₁.1 s₁.2
  other : ∀ s : Window, s ≠ s₀ → s ≠ s₁ → (vc'.Held s.1 s.2 ↔ vc.Held s.1 s.2)

/-- The cache gives the same windows to the same call. -/
theorem mapMany_inj {frames : List PhysFrame} {s₀ s₁ t₀ t₁ : Window} {vc₁ vc₂ : VCache}
    (h : vc.mapMany frames [] = .ok (some [s₀.page, s₁.page], vc₁))
    (h' : vc.mapMany frames [] = .ok (some [t₀.page, t₁.page], vc₂)) :
    s₀ = t₀ ∧ s₁ = t₁ ∧ vc₁ = vc₂ := by
  have heq := Except.ok.inj (h.symm.trans h')
  simp only [Prod.mk.injEq, Option.some.injEq, List.cons.injEq, and_true] at heq
  exact ⟨Window.page_injective heq.1.1, Window.page_injective heq.1.2, heq.2⟩

/-- Two windows can be mapped when two are not held. -/
theorem mapMany_progress (hc : vc.Counted) (hroom : 2 ≤ vc.unheld.card) (f g : PhysFrame) :
    ∃ s₀ s₁ : Window, ∃ vc', vc.mapMany [f, g] [] = .ok (some [s₀.page, s₁.page], vc') ∧
      vc'.Counted ∧ Borrows vc vc' s₀ s₁ := by
  obtain ⟨i₀, j₀, vc₁, hmap₀, hc₁, hbut₀⟩ := map_progress hc
    (Finset.card_pos.mp (by omega)) f
  -- after the first window is taken another one is left
  obtain ⟨j, hj, hne⟩ := Finset.exists_mem_ne (show 1 < vc.unheld.card by omega) j₀
  have hroom₁ : vc₁.unheld.Nonempty := by
    refine ⟨j, mem_unheld.mpr ?_⟩
    rw [hbut₀ 0 j fun h => hne h.2]
    exact mem_unheld.mp hj
  obtain ⟨i₁, j₁, vc₂, hmap₁, hc₂, hbut₁⟩ := map_progress hc₁ hroom₁ g
  obtain ⟨i₀', j₀', hpage₀, hm₀⟩ := map_spec hmap₀
  obtain ⟨i₁', j₁', hpage₁, hm₁⟩ := map_spec hmap₁
  obtain ⟨rfl, rfl⟩ := slotPage_injective hpage₀
  obtain ⟨rfl, rfl⟩ := slotPage_injective hpage₁
  -- the first window is held when the second one is chosen
  have hdiff : ¬ (i₀ = i₁ ∧ j₀ = j₁) := by
    rintro ⟨rfl, rfl⟩
    exact hm₁.fresh hm₀.held
  refine ⟨(i₀, j₀), (i₁, j₁), vc₂, ?_, hc₂, fun h => hdiff (Prod.ext_iff.mp h), hm₀.fresh, ?_,
    (hm₁.keeps i₀ j₀ hdiff hm₀.held).1, hm₁.held, ?_⟩
  · simp [mapMany, hmap₀, hmap₁, Window.page]
  · rw [← hbut₀ i₁ j₁ fun h => hdiff ⟨h.1.symm, h.2.symm⟩]
    exact hm₁.fresh
  · intro s hs₀ hs₁
    rw [hbut₁ s.1 s.2 fun h => hs₁ (Prod.ext h.1 h.2), hbut₀ s.1 s.2 fun h =>
      hs₀ (Prod.ext h.1 h.2)]

/-- Two held windows can be given up. -/
theorem unmapMany_progress (hc : vc.Counted) {s₀ s₁ : Window} (hne : s₀ ≠ s₁)
    (h₀ : vc.Held s₀.1 s₀.2) (h₁ : vc.Held s₁.1 s₁.2) :
    ∃ vc', vc.unmapMany [s₀.page, s₁.page] = .ok vc' ∧ vc'.Counted ∧ Borrows vc' vc s₀ s₁ := by
  have hne₀ : ¬ (s₀.1 = s₁.1 ∧ s₀.2 = s₁.2) := fun h => hne (Prod.ext h.1 h.2)
  have hne₁ : ¬ (s₁.1 = s₀.1 ∧ s₁.2 = s₀.2) := fun h => hne (Prod.ext h.1.symm h.2.symm)
  obtain ⟨vc₁, hun₀, hc₁, hbut₀, hnot₀⟩ := unmap_progress hc h₀
  obtain ⟨vc₂, hun₁, hc₂, hbut₁, hnot₁⟩ := unmap_progress hc₁ ((hbut₀ _ _ hne₁).mpr h₁)
  refine ⟨vc₂, ?_, hc₂, hne, ?_, hnot₁, h₀, h₁, ?_⟩
  · simp [unmapMany, Window.page, hun₀, hun₁]
  · rw [hbut₁ _ _ hne₀]
    exact hnot₀
  · intro s hs₀ hs₁
    rw [hbut₁ s.1 s.2 fun h => hs₁ (Prod.ext h.1 h.2), hbut₀ s.1 s.2 fun h =>
      hs₀ (Prod.ext h.1 h.2)]

/-- Borrowing and giving back leaves the same windows held. -/
theorem Borrows.held_eq {vc'' : VCache} {s₀ s₁ : Window} (h : Borrows vc vc' s₀ s₁)
    (h' : Borrows vc'' vc' s₀ s₁) (s : Window) : vc''.Held s.1 s.2 ↔ vc.Held s.1 s.2 := by
  by_cases hs₀ : s = s₀
  · subst hs₀
    exact iff_of_false h'.before₀ h.before₀
  · by_cases hs₁ : s = s₁
    · subst hs₁
      exact iff_of_false h'.before₁ h.before₁
    · exact (h'.other s hs₀ hs₁).symm.trans (h.other s hs₀ hs₁)

end VCache

/-! ## The whole call -/

section Call

variable {vm vm' : Vm} {M F F' : Set PhysFrame} {page : Page} {phys : PhysFrame} {size : ℕ}
  {flags : PageTableFlags} {r : Except KernelMapError Unit}

/-- The loop keeps the present bits of all windows, when its own are present. -/
theorem KeepsWindows.present_eq {s₀ s₁ : Window} (h : KeepsWindows vm vm' {s₀, s₁})
    (h₀ : (vm.entry s₀).present = true) (h₁ : (vm.entry s₁).present = true) (s : Window) :
    (vm'.entry s).present = (vm.entry s).present := by
  by_cases hs : s ∈ ({s₀, s₁} : Set Window)
  · have hbefore : (vm.entry s).present = true := by
      rcases hs with rfl | rfl
      · exact h₀
      · exact h₁
    rw [h.present s hs hbefore, hbefore]
  · rw [h.entries s hs]

theorem KeepsWindows.held_iff {s₀ s₁ : Window} (h : KeepsWindows vm vm' {s₀, s₁})
    (h₀ : (vm.entry s₀).present = true) (h₁ : (vm.entry s₁).present = true) (s : Window) :
    vm'.vcache.Held s.1 s.2 ↔ vm.vcache.Held s.1 s.2 := by
  have hstate : vm'.vcache.state = vm.vcache.state := h.state
  have hpresent : (vm'.vcache.p1 s.1 s.2).present = (vm.vcache.p1 s.1 s.2).present :=
    h.present_eq h₀ h₁ s
  rw [VCache.Held, VCache.Held, hstate, hpresent]

/-- After the loop the temporary windows can be given up, and virtual memory is as ready as it
was before. -/
private theorem unmap_after_loop (hready : vm.Ready) (hfresh : Disjoint F vm.tables)
    (hpage : ¬ InArea page) {s₀ s₁ : Window} {vc : VCache} {n : ℕ}
    (hmany : vm.vcache.mapMany [nullFrame, nullFrame] [] = .ok (some [s₀.page, s₁.page], vc))
    (hcount : vc.Counted) (hborrow : VCache.Borrows vm.vcache vc s₀ s₁)
    (hloop : Returns M (mapPages page phys s₀.page s₁.page n 0 flags (vm.withVCache vc)) F vm' F') :
    ∃ vc', vm'.vcache.unmapMany [s₀.page, s₁.page] = .ok vc' ∧ (vm'.withVCache vc').Ready := by
  obtain ⟨hev, htmp⟩ := mapMany_temporaries (F := F) hready.inv hmany
  obtain ⟨hev', hkeep, -⟩ :=
    mapPages_evolves hev.inv (hev.fresh hfresh) htmp (not_inArea_add_zero hpage) hloop
  have hvc : (vm.withVCache vc).vcache = vc := Vm.vcache_withVCache hready.inv.p1_injective vc
  have hp₀ : ((vm.withVCache vc).entry s₀).present = true := by
    rw [entry_withVCache hready.inv]
    exact hborrow.after₀.1
  have hp₁ : ((vm.withVCache vc).entry s₁).present = true := by
    rw [entry_withVCache hready.inv]
    exact hborrow.after₁.1
  -- pointing the two windows elsewhere has changed no present bit
  have hheld : ∀ s : Window, vm'.vcache.Held s.1 s.2 ↔ vc.Held s.1 s.2 := fun s => by
    rw [hkeep.held_iff hp₀ hp₁, hvc]
  have hcount' : vm'.vcache.Counted := by
    refine (hvc.symm ▸ hcount : (vm.withVCache vc).vcache.Counted).of_present hkeep.state ?_
    exact fun i j => hkeep.present_eq hp₀ hp₁ (i, j)
  obtain ⟨vc', hunmap, hcount'', hback⟩ := VCache.unmapMany_progress hcount' hborrow.ne
    ((hheld s₀).mpr hborrow.after₀) ((hheld s₁).mpr hborrow.after₁)
  have hev'' := evolves_unmapMany (F := F') hev'.inv (htmp.of_keeps hev' hkeep) hunmap
  have hvc' : (vm'.withVCache vc').vcache = vc' := Vm.vcache_withVCache hev'.inv.p1_injective vc'
  refine ⟨vc', hunmap, hev''.inv, hev''.clean (hev'.clean (hev.clean hready.clean)),
    by rwa [hvc'], ?_⟩
  -- what was borrowed was given back
  have hback' : VCache.Borrows vc' vc s₀ s₁ :=
    ⟨hback.ne, hback.before₀, hback.before₁, hborrow.after₀, hborrow.after₁,
      fun s h₀ h₁ => (hheld s).symm.trans (hback.other s h₀ h₁)⟩
  have hsame : vc'.unheld = vm.vcache.unheld := by
    ext j
    rw [VCache.mem_unheld, VCache.mem_unheld, hborrow.held_eq hback' (0, j)]
  rw [hvc', hsame]
  exact hready.room

/-- After a call virtual memory is ready for the next one. -/
theorem map_ready (hready : vm.Ready) (hfresh : Disjoint F vm.tables)
    (h : Returns M (KernelMapper.map vm page phys size flags) F (r, vm') F') : vm'.Ready := by
  rcases map_cases h with ⟨-, -, rfl, -⟩ | ⟨-, -, harea, s₀, s₁, vc, vm₁, vc₂, hmany, hloop,
    hunmap, rfl⟩
  · exact hready
  · -- the windows that the call was given are the ones that it always finds
    obtain ⟨t₀, t₁, vc', hmany', hcount, hborrow⟩ :=
      VCache.mapMany_progress hready.counted hready.room nullFrame nullFrame
    obtain ⟨rfl, rfl, rfl⟩ := VCache.mapMany_inj hmany hmany'
    obtain ⟨vc₂', hunmap', hready'⟩ :=
      unmap_after_loop hready hfresh harea hmany hcount hborrow hloop
    obtain rfl : vc₂ = vc₂' := by simpa using hunmap.symm.trans hunmap'
    exact hready'

/-- A call that returns does not report an error, when its arguments are in order. -/
theorem map_ok (hready : vm.Ready) (hsize : size ≠ 0) (hpage : ¬ InArea page)
    (h : Returns M (KernelMapper.map vm page phys size flags) F (r, vm') F') : r = .ok () := by
  unfold KernelMapper.map at h
  rw [if_neg hsize, if_neg hpage] at h
  obtain ⟨s₀, s₁, vc, hmany, -, -⟩ :=
    VCache.mapMany_progress hready.counted hready.room nullFrame nullFrame
  simp only [returns_bind, returns_lift, hmany, liftM_ok, returns_pure'] at h
  obtain ⟨size', F₁, ⟨-, rfl⟩, windows, F₂, ⟨rfl, rfl⟩, h⟩ := h
  simp only [returns_bind, returns_lift, returns_pure, Prod.mk.injEq] at h
  obtain ⟨vm₂, F₃, -, vc₂, F₄, -, ⟨rfl, -⟩, -⟩ := h
  rfl

/-- The pages and frames of a range exist. -/
structure RangeExists (page : Page) (phys : PhysFrame) (n : ℕ) : Prop where
  pages : ∀ k < n, ∃ q, page.add k = .ok q
  frames : ∀ k < n, ∃ f, phys.add k = .ok f

/-- With three free frames for each page the call does not panic. -/
theorem map_safe (hready : vm.Ready) (hfresh : Disjoint F vm.tables)
    (hfree : HasFree (3 * pageCount size) F) (hpage : ¬ InArea page)
    (halign : alignUp size pageSize < 2 ^ 64) (hrange : RangeExists page phys (pageCount size))
    (hflags : flags.contains .HUGE_PAGE = false) :
    Safe M (KernelMapper.map vm page phys size flags) F := by
  unfold KernelMapper.map
  split_ifs
  · exact safe_pure _
  · obtain ⟨s₀, s₁, vc, hmany, hcount, hborrow⟩ :=
      VCache.mapMany_progress hready.counted hready.room nullFrame nullFrame
    have hsize : checkedAlignUp 64 Panic.alignOverflow size pageSize =
        .ok (alignUp size pageSize) :=
      checkedAlignUp_eq_ok.mpr ⟨halign, rfl⟩
    simp only [hsize, hmany, liftM_ok, mk_pure_bind]
    rw [← pageCount]
    obtain ⟨hev, htmp⟩ := mapMany_temporaries (F := F) hready.inv hmany
    refine safe_bind (mapPages_safe hev.inv (hev.clean hready.clean) (hev.fresh hfresh) hfree htmp
      hflags (not_inArea_add_zero hpage) ?_ ?_) fun vm₂ F₂ hloop => ?_
    · simpa using hrange.pages
    · simpa using hrange.frames
    · -- the windows are still those of the call when it gives them up
      obtain ⟨vc₂, hunmap, -⟩ :=
        unmap_after_loop hready hfresh hpage hmany hcount hborrow hloop
      exact safe_lift_bind hunmap (safe_pure _)

/-- With three free frames for each page the call succeeds: one for each table that may be missing
on the way to it. The flags must not ask for a huge page. -/
theorem map_returns (hready : vm.Ready) (hfresh : Disjoint F vm.tables)
    (hfree : HasFree (3 * pageCount size) F) (hsize : size ≠ 0) (hpage : ¬ InArea page)
    (halign : alignUp size pageSize < 2 ^ 64) (hrange : RangeExists page phys (pageCount size))
    (hflags : flags.contains .HUGE_PAGE = false) :
    ∃ vm' F', Returns M (KernelMapper.map vm page phys size flags) F (.ok (), vm') F' := by
  have hsafe := map_safe (M := M) hready hfresh hfree hpage halign hrange hflags
  obtain ⟨⟨r, vm'⟩, F', hret⟩ := hsafe.returns
  obtain rfl := map_ok hready hsize hpage hret
  exact ⟨vm', F', hret⟩

end Call

/-! ## A fresh address space -/

/-- Virtual memory with nothing mapped: the root is frame 1, the P3 and P2 tables of the virtual
cache are frames 2 and 3, its P1 tables are frames 4 to 7, and the first five windows show these
and the root. -/
def freshVm : Vm where
  mem f i :=
    if f.num = 1 ∧ i.val = 256 then .ofFrame ⟨2, by decide⟩ (.WRITABLE ||| .PRESENT)
    else if f.num = 2 ∧ i.val = 0 then .ofFrame ⟨3, by decide⟩ (.WRITABLE ||| .PRESENT)
    else if f.num = 3 ∧ i.val < 4 then .ofFrame ⟨4 + i, by omega⟩ (.WRITABLE ||| .PRESENT)
    else if f.num = 4 ∧ i.val < 4 then windowEntry ⟨4 + i, by omega⟩
    else if f.num = 4 ∧ i.val = 4 then windowEntry ⟨1, by decide⟩
    else 0
  cr3 := ⟨1, by decide⟩
  p1 i := ⟨4 + i, by omega⟩
  vcacheState := ⟨fun i => if i.val = 0 then 507 else 512, fun _ => 0, fun _ _ => 0⟩
  p4table := ⟨kvmspace.num + 4, by decide⟩

/-- The words of the tables above the leaves. -/
private theorem freshVm_word {f : PhysFrame} (hf : f.num < 4) (i : Fin 512) :
    freshVm.mem f i = 0 ∨ ∃ g, (freshVm.mem f i).frame = some g ∧
      (f.num = 1 ∧ i.val = 256 ∧ g.num = 2 ∨ f.num = 2 ∧ i.val = 0 ∧ g.num = 3 ∨
        f.num = 3 ∧ i.val < 4 ∧ g.num = 4 + i.val) := by
  have hframe : ∀ g, (PageTableEntry.ofFrame g (.WRITABLE ||| .PRESENT)).frame = some g :=
    fun g => PageTableEntry.frame_ofFrame g (by decide) (by decide)
  simp only [freshVm]
  split_ifs with h₁ h₂ h₃ h₄ h₅
  · exact .inr ⟨_, hframe _, .inl ⟨h₁.1, h₁.2, rfl⟩⟩
  · exact .inr ⟨_, hframe _, .inr (.inl ⟨h₂.1, h₂.2, rfl⟩)⟩
  · exact .inr ⟨_, hframe _, .inr (.inr ⟨h₃.1, h₃.2, rfl⟩)⟩
  · omega
  · omega
  · exact .inl rfl

private theorem freshVm_link {f g : PhysFrame} {i : Fin 512} (hf : f.num < 4)
    (h : (freshVm.mem f i).frame = some g) :
    f.num = 1 ∧ i.val = 256 ∧ g.num = 2 ∨ f.num = 2 ∧ i.val = 0 ∧ g.num = 3 ∨
      f.num = 3 ∧ i.val < 4 ∧ g.num = 4 + i.val := by
  rcases freshVm_word hf i with hzero | ⟨g', hg', hcases⟩
  · rw [hzero, PageTableEntry.frame_zero] at h
    cases h
  · rw [hg'] at h
    cases h
    exact hcases

/-- The walks of a fresh address space. -/
private theorem freshVm_walk {p : List (Fin 512)} {f : PhysFrame} (hp : p.length ≤ 3)
    (h : freshVm.walk p = some f) :
    (f.num = p.length + 1 ∧ p = ([256, 0] : List (Fin 512)).take p.length) ∨
      ∃ i : Fin 4, p = Vm.areaPath i ∧ f.num = 4 + i.val := by
  induction p using List.reverseRecOn generalizing f with
  | nil =>
    cases h
    exact .inl ⟨rfl, rfl⟩
  | append_singleton p k ih =>
    rw [List.length_append, List.length_singleton] at hp
    obtain ⟨g, hg, hk⟩ := walk_snoc_eq_some.mp h
    rcases ih (by omega) hg with ⟨hnum, hpath⟩ | ⟨i, rfl, -⟩
    · have hlink := freshVm_link (by omega) hk
      -- level by level: one entry leads on from each table, and four from the P2 table
      match p, hp with
      | [], _ =>
        obtain ⟨-, hk, hf⟩ : g.num = 1 ∧ k.val = 256 ∧ f.num = 2 := by
          simp only [List.length_nil] at hnum
          omega
        have hk : k = 256 := Fin.ext hk
        exact .inl ⟨hf, by rw [hk]; rfl⟩
      | [a], _ =>
        obtain ⟨-, hk, hf⟩ : g.num = 2 ∧ k.val = 0 ∧ f.num = 3 := by
          simp only [List.length_singleton] at hnum
          omega
        have hk : k = 0 := Fin.ext hk
        exact .inl ⟨hf, by rw [hk, hpath]; rfl⟩
      | [a, b], _ =>
        obtain ⟨-, hk, hf⟩ : g.num = 3 ∧ k.val < 4 ∧ f.num = 4 + k.val := by
          simp only [List.length_cons, List.length_nil] at hnum
          omega
        exact .inr ⟨⟨k.val, hk⟩, by rw [hpath]; rfl, hf⟩
      | a :: b :: c :: rest, hp =>
        simp only [List.length_cons] at hp
        omega
    · simp [Vm.areaPath] at hp

theorem freshVm_tables {f : PhysFrame} (hf : f ∈ freshVm.tables) : f.num < 8 := by
  obtain ⟨p, hp, hw⟩ := hf
  rcases freshVm_walk hp hw with ⟨hnum, hpath⟩ | ⟨i, -, hnum⟩
  · omega
  · omega

theorem freshVm_wired : freshVm.Wired := by
  intro i
  have hframe : ∀ g, (PageTableEntry.ofFrame g (.WRITABLE ||| .PRESENT)).frame = some g :=
    fun g => PageTableEntry.frame_ofFrame g (by decide) (by decide)
  have hlt : i.val < 4 := i.isLt
  simp [Vm.walk, Vm.areaPath, Radix.walk, freshVm, hframe, hlt]

/-- The fresh address space satisfies the invariant: the walks above are all there are, and no two
of them end in one table. -/
theorem freshVm_inv : freshVm.Inv := by
  refine ⟨?_, freshVm_wired, (0, 4), rfl, ⟨?_, ?_⟩, rfl⟩
  · intro p q f hp hq hwp hwq
    rcases freshVm_walk hp hwp with ⟨hnum, hpath⟩ | ⟨i, rfl, hnum⟩
    · rcases freshVm_walk hq hwq with ⟨hnum', hpath'⟩ | ⟨i', rfl, hnum'⟩
      · rw [hpath, hpath', show p.length = q.length by omega]
      · have hlen := congrArg List.length hpath
        simp only [List.length_take, List.length_cons, List.length_nil] at hlen
        omega
    · rcases freshVm_walk hq hwq with ⟨hnum', hpath'⟩ | ⟨i', rfl, hnum'⟩
      · have hlen := congrArg List.length hpath'
        simp only [List.length_take, List.length_cons, List.length_nil] at hlen
        omega
      · rw [show i = i' from Fin.ext (by omega)]
  · simp [Vm.entry, freshVm]
  · simp [Vm.entry, freshVm]

theorem freshVm_clean : freshVm.Clean := by
  intro p f i hp hw
  have hnum : f.num < 4 := by
    rcases freshVm_walk hp.le hw with ⟨hnum, -⟩ | ⟨i', rfl, -⟩
    · omega
    · simp [Vm.areaPath] at hp
  rcases freshVm_word hnum i with hzero | ⟨g, hg, -⟩
  · exact .inl hzero
  · exact .inr ⟨g, hg⟩

/-- Nothing outside the area of the virtual cache is mapped. -/
theorem freshVm_translate {q : Page} (hq : ¬ InArea q) : freshVm.translate q = none := by
  rw [Vm.translate]
  -- only the area has complete walks; all others end at an unused entry
  rcases walk_or_stuck PageTableEntry.frame freshVm.mem freshVm.cr3 q.path with
    ⟨t, hw⟩ | ⟨p, k, r, f, hsplit, hw, hnone⟩
  · rcases freshVm_walk q.path_length.le hw with ⟨-, hpath⟩ | ⟨i, hpath, -⟩
    · have hlen := congrArg List.length hpath
      simp at hlen
    · exact absurd (Vm.inArea_of_path hpath) hq
  · have hp : p.length < 3 := by
      have hlen := congrArg List.length hsplit
      rw [Page.path_length, List.length_append, List.length_cons] at hlen
      omega
    rw [hsplit, stop_of_stuck hw hnone]
    rcases freshVm_clean p f k hp hw with hzero | ⟨g, hg⟩
    · rw [hzero]
      exact resolve_of_not_present PageTableEntry.present_zero _
    · rw [hnone] at hg
      cases hg

private theorem freshVm_present (i : Fin 4) (j : Fin 512) :
    (freshVm.vcache.p1 i j).present = decide (i = 0 ∧ j.val < 5) := by
  have hi : (4 + i.val = 4) ↔ i = 0 := by
    rw [Fin.ext_iff]
    simp
  have h₁ : ¬ (4 + i.val = 1) := by omega
  have h₂ : ¬ (4 + i.val = 2) := by omega
  have h₃ : ¬ (4 + i.val = 3) := by omega
  simp only [Vm.vcache, freshVm, h₁, h₂, h₃, hi, false_and, if_false]
  by_cases hzero : i = 0
  · by_cases hlt : j.val < 4
    · simp [hzero, hlt, show j.val < 5 by omega]
    · by_cases hfour : j.val = 4
      · simp [hzero, hfour]
      · simp [hzero, hlt, hfour, show ¬ j.val < 5 by omega]
  · simp [hzero]

/-- The mapper can work in it. All windows but the first five are free. -/
theorem freshVm_ready : freshVm.Ready := by
  have hfree : ∀ i, freshVm.vcache.freeSlots i =
      Finset.univ.filter fun j : Fin 512 => ¬ (i = 0 ∧ j.val < 5) := by
    intro i
    ext j
    rw [VCache.mem_freeSlots, freshVm_present]
    simp
  have hunheld : freshVm.vcache.unheld = freshVm.vcache.freeSlots 0 := by
    ext j
    have hage : freshVm.vcache.state.p1Age 0 j = 0 := rfl
    rw [VCache.mem_unheld, VCache.mem_freeSlots, VCache.Held, hage]
    simp
  refine ⟨freshVm_inv, freshVm_clean, ⟨fun i => ?_, fun i => ?_, fun i j hage => absurd rfl hage⟩,
    ?_⟩
  · rw [hfree]
    revert i
    decide +kernel
  · refine (Finset.card_eq_zero.mpr (Finset.eq_empty_iff_forall_notMem.mpr fun j hj => ?_)).symm
    exact VCache.mem_lazySlots.mp hj rfl
  · rw [hunheld, hfree]
    decide +kernel

/-- A page of the user half and a frame for it. -/
def lowPage : Page := ⟨5, by decide⟩

@[inherit_doc lowPage] def lowFrame : PhysFrame := ⟨100, by decide⟩

/-- Two pages of the user half. -/
theorem lowRange_exists : RangeExists lowPage lowFrame (pageCount 8000) where
  pages k hk := ⟨⟨5 + k, by simp [pageCount, alignUp, pageSize] at hk; omega⟩,
    Page.add_eq_ok.mpr rfl⟩
  frames k hk := ⟨⟨100 + k, by simp [pageCount, alignUp, pageSize] at hk; omega⟩,
    PhysFrame.add_eq_ok.mpr rfl⟩

/-- Mapping two pages into a fresh address space. -/
theorem map_translates_fresh :
    ∃ vm' F', Returns Set.univ (KernelMapper.map freshVm lowPage lowFrame 8000 .WRITABLE)
        {f | 16 ≤ f.num} (.ok (), vm') F' ∧
      (∀ k < (8000 + 4095) / 4096, ∃ q f translation,
        lowPage.add k = .ok q ∧ lowFrame.add k = .ok f ∧
        vm'.translate q = some translation ∧ translation.frame = f ∧
        translation.flags.contains .PRESENT = true) ∧
      ∀ q, ¬ InArea q → (∀ k < (8000 + 4095) / 4096, lowPage.add k ≠ .ok q) →
        vm'.translate q = freshVm.translate q := by
  have hfresh : Disjoint {f : PhysFrame | 16 ≤ f.num} freshVm.tables := by
    refine Set.disjoint_left.mpr fun f hf hmem => ?_
    have := freshVm_tables hmem
    have hge : 16 ≤ f.num := hf
    omega
  have hcount : pageCount 8000 = 2 := by decide
  -- six frames: the first ones from number 16 on
  have hfree : HasFree (3 * pageCount 8000) {f : PhysFrame | 16 ≤ f.num} := by
    refine .of_injective (g := fun k => ⟨16 + k.val, ?_⟩) ?_ ?_
    · omega
    · intro k k' hkk
      rw [PhysFrame.mk.injEq] at hkk
      ext
      omega
    · intro k
      exact Nat.le_add_right _ _
  have hpage : ¬ InArea lowPage := by decide
  have halign : alignUp 8000 pageSize < 2 ^ 64 := by
    rw [show alignUp 8000 pageSize = 8192 by decide]
    omega
  obtain ⟨vm', F', hret⟩ := map_returns (M := Set.univ) freshVm_ready hfresh hfree (by decide)
    hpage halign lowRange_exists
    (show PageTableFlags.WRITABLE.contains .HUGE_PAGE = false by decide)
  exact ⟨vm', F', hret, map_translates freshVm_inv hfresh hret⟩

end HeliumOS.Mem.Virt
