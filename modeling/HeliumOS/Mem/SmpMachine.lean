import HeliumOS.Mem.Machine
import HeliumOS.Mem.Virt.SmpCoherent

/-!
# Runs of the Memory Subsystem on Several Cores

`Machine` with a translation cache for each core.  Any core may make the next call.

- `runs_with_caches`: for every behaviour of the caches, and however the calls are spread over the
  cores, the machine goes through the states that it goes through without caches.
- `last_map_coherent`: a core uses the current translation of a page that it was the last to map.
  No core tells another one to flush, so that this is all that can be said of a page that is mapped
  again.
-/

namespace HeliumOS.Mem

open HeliumOS.Lib HeliumOS.Lib.AllocProg HeliumOS.Lib.Radix HeliumOS.Mem.Virt

namespace Virt

open Vm

/-! ## The windows of a call -/

/-- The page is outside the area of the virtual cache, or a window that is held. -/
def Vm.Lasting (vm : Vm) (q : Page) : Prop :=
  ¬ InArea q ∨ ∃ s : Window, q = s.page ∧ vm.vcache.Held s.1 s.2

namespace Vm

variable {vm : Vm} {vc vc' : VCache} {q : Page} {frame : PhysFrame}

theorem Inv.lasting_root (hinv : vm.Inv) :
    vm.Lasting vm.p4table ∧ (vm.translate vm.p4table).isSome := by
  obtain ⟨r, hr, hshows, hage⟩ := hinv.root
  exact ⟨.inr ⟨r, hr, hshows.1, hage⟩, hr ▸ hinv.wired.translate_isSome hshows.1⟩

theorem withVCache_withVCache (hinj : Function.Injective vm.p1) :
    (vm.withVCache vc).withVCache vc' = vm.withVCache vc' := by
  have hmem : ((vm.withVCache vc).withVCache vc').mem = (vm.withVCache vc').mem := by
    funext f
    by_cases hf : ∃ i, f = vm.p1 i
    · obtain ⟨i, rfl⟩ := hf
      have hinj' : Function.Injective (vm.withVCache vc).p1 := hinj
      have htwice : ((vm.withVCache vc).withVCache vc').mem (vm.p1 i) = vc'.p1 i :=
        withVCache_mem_p1 hinj' vc' i
      rw [htwice, withVCache_mem_p1 hinj]
    · rw [not_exists] at hf
      have htwice : ((vm.withVCache vc).withVCache vc').mem f = (vm.withVCache vc).mem f :=
        withVCache_mem_of_ne hf
      rw [htwice, withVCache_mem_of_ne hf, withVCache_mem_of_ne hf]
  exact congrArg (fun mem => (⟨mem, vm.cr3, vm.p1, vc'.state, vm.p4table⟩ : Vm)) hmem

/-- The windows that keep their entries translate as before. -/
theorem Inv.translate_withVCache (hinv : vm.Inv)
    (hq : ¬ InArea q ∨ ∃ s : Window, q = s.page ∧ vc.p1 s.1 s.2 = vm.entry s) :
    (vm.withVCache vc).translate q = vm.translate q := by
  refine congrArg resolve ((hinv.agree_withVCache vc).stop_eq q.path_length fun t ht => ?_)
  rcases hq with hout | ⟨s, rfl, hs⟩
  · rw [withVCache_mem_of_ne (hinv.p1_ne_leaf hout ht)]
  · have hpath : s.page.path = areaPath s.1 := slotPage_path s.1 s.2
    rw [hpath] at ht
    obtain rfl : vm.p1 s.1 = t := Option.some.inj ((hinv.wired s.1).symm.trans ht)
    rw [withVCache_mem_p1 hinv.p1_injective, Window.page, slotPage_p1Index]
    exact hs

/-- Bookkeeping alone changes no translation. -/
theorem translate_withVCache_of_p1 (h : vc.p1 = vm.vcache.p1) :
    (vm.withVCache vc).translate q = vm.translate q := by
  have hmem : (vm.withVCache vc).mem = vm.mem := by
    funext f
    simp only [withVCache]
    split
    · next i hi =>
      have hf : vm.p1 i = f := by simpa using List.find?_some hi
      rw [h, ← hf]
      rfl
    · rfl
  unfold translate
  rw [hmem]
  rfl

theorem Inv.translate_mapped (hinv : vm.Inv) {s : Window}
    (h : VCache.Mapped vm.vcache vc frame s.1 s.2) (hq : vm.Lasting q) :
    (vm.withVCache vc).translate q = vm.translate q := by
  refine hinv.translate_withVCache (hq.imp_right ?_)
  rintro ⟨t, rfl, hheld⟩
  exact ⟨t, rfl, (h.keeps t.1 t.2 (fun heq => h.fresh (heq.1 ▸ heq.2 ▸ hheld)) hheld).2⟩

/-- What is held stays held. -/
theorem Lasting.mapped {s : Window} (hinj : Function.Injective vm.p1)
    (h : VCache.Mapped vm.vcache vc frame s.1 s.2) (hq : vm.Lasting q) :
    (vm.withVCache vc).Lasting q := by
  refine hq.imp_right ?_
  rintro ⟨t, rfl, hheld⟩
  refine ⟨t, rfl, ?_⟩
  rw [vcache_withVCache hinj]
  exact (h.keeps t.1 t.2 (fun heq => h.fresh (heq.1 ▸ heq.2 ▸ hheld)) hheld).1

end Vm

theorem VCache.unmapMany_p1 {vc vc' : VCache} {s₀ s₁ : Window}
    (h : vc.unmapMany [s₀.page, s₁.page] = .ok vc') : vc'.p1 = vc.p1 := by
  simp only [unmapMany, except_bind_eq_ok, Except.ok.injEq] at h
  obtain ⟨vc₁, h₀, vc₂, h₁, rfl⟩ := h
  rw [(unmap_spec h₁).1, (unmap_spec h₀).1]

/-- A new window was not held before. -/
theorem VCache.Mapped.ne_of_lasting {vm : Vm} {vc : VCache} {frame : PhysFrame} {s : Window}
    {q : Page} (h : Mapped vm.vcache vc frame s.1 s.2) (hq : vm.Lasting q) : q ≠ s.page := by
  rintro rfl
  rcases hq with hout | ⟨t, ht, hheld⟩
  · exact hout (slotPage_inArea s.1 s.2)
  · obtain rfl : s = t := Window.page_injective ht
    exact h.fresh hheld

namespace Smp

variable {ι : Type} [DecidableEq ι] {hw : Hardware ι} {me : ι} {st : Smp ι} {page : Page}
  {phys : PhysFrame}
  {M F : Set PhysFrame} {s₀ s₁ : Window}

/-- A window is opened as without caches, and the core is coherent there. -/
theorem mapWindow_spec (hw : Hardware ι) (me : ι) (hinv : st.vm.Inv) (frame : PhysFrame) :
    (∃ e, st.vm.vcache.map frame = .error e ∧ st.mapWindow hw me frame = .error e) ∨
      ∃ (s : Window) (vc : VCache) (st' : Smp ι), st.vm.vcache.map frame = .ok (some s.page, vc) ∧
        st.mapWindow hw me frame = .ok (some s.page, st') ∧
        VCache.Mapped st.vm.vcache vc frame s.1 s.2 ∧ st'.vm = st.vm.withVCache vc ∧
        st'.Coherent me s.page ∧ ∀ q, st.vm.Lasting q → Undisturbed st st' q := by
  unfold Smp.mapWindow
  cases hmap : st.vm.vcache.map frame with
  | error e => exact .inl ⟨e, rfl, rfl⟩
  | ok r =>
    obtain ⟨page, vc⟩ := r
    cases page with
    | none => exact absurd hmap VCache.map_ne_none
    | some page =>
      obtain ⟨i, j, rfl, hmapped⟩ := VCache.map_spec hmap
      refine .inr ⟨(i, j), vc, _, rfl, rfl, hmapped, rfl, coherent_invlpg_self, fun q hq => ?_⟩
      exact (undisturbed_change (hinv.translate_mapped (s := (i, j)) hmapped hq)).trans
        (undisturbed_invlpg _)

/-- The core opens the two windows of `map`. -/
theorem mapMany_spec (hw : Hardware ι) (hinv : st.vm.Inv) (hroot : st.Coherent me st.vm.p4table) :
    (∃ e, st.vm.vcache.mapMany [nullFrame, nullFrame] [] = .error e ∧
        st.mapMany hw me [nullFrame, nullFrame] [] = .error e) ∨
      ∃ (s₀ s₁ : Window) (vc : VCache) (st' : Smp ι),
        st.vm.vcache.mapMany [nullFrame, nullFrame] [] = .ok (some [s₀.page, s₁.page], vc) ∧
        st.mapMany hw me [nullFrame, nullFrame] [] = .ok (some [s₀.page, s₁.page], st') ∧
        st'.vm = st.vm.withVCache vc ∧ Equipped me s₀ s₁ st' ∧
        ∀ q, st.vm.Lasting q → q ≠ s₀.page ∧ q ≠ s₁.page ∧ Undisturbed st st' q := by
  simp only [Smp.mapMany, VCache.mapMany]
  rcases mapWindow_spec hw me hinv nullFrame with
    ⟨e, hflat, hcached⟩ | ⟨s₀, vc₁, st₁, hflat₀, hcached₀, hmapped₀, hvm₁, hco₀, hkept₀⟩
  · exact .inl ⟨e, by rw [hflat]; rfl, by rw [hcached]; rfl⟩
  -- the second window is opened in tables that are still well formed
  have hev₁ : Evolves st.vm (st.vm.withVCache vc₁) ∅ ∅ ∅ := evolves_withVCache hinv
    fun s _ hheld => hmapped₀.keeps s.1 s.2
      (fun heq => hmapped₀.fresh (heq.1 ▸ heq.2 ▸ hheld)) hheld
  have hvc₁ : st₁.vm.vcache = vc₁ := by rw [hvm₁, vcache_withVCache hinv.p1_injective]
  have hinv₁ : st₁.vm.Inv := hvm₁ ▸ hev₁.inv
  rcases mapWindow_spec hw me hinv₁ nullFrame with
    ⟨e, hflat, hcached⟩ | ⟨s₁, vc₂, st₂, hflat₁, hcached₁, hmapped₁, hvm₂, hco₁, hkept₁⟩
  · rw [hvc₁] at hflat
    exact .inl ⟨e, by rw [hflat₀, except_ok_bind]; simp [hflat], by
      rw [hcached₀, except_ok_bind]
      simp [hcached]⟩
  rw [hvc₁] at hflat₁ hmapped₁
  rw [hvm₁, withVCache_withVCache hinv.p1_injective] at hvm₂
  have hmany : st.vm.vcache.mapMany [nullFrame, nullFrame] [] =
      .ok (some [s₀.page, s₁.page], vc₂) := by
    simp [VCache.mapMany, hflat₀, hflat₁]
  obtain ⟨-, htmp⟩ := mapMany_temporaries (F := ∅) hinv hmany
  have hkept : ∀ q, st.vm.Lasting q → Undisturbed st st₂ q := fun q hq =>
    (hkept₀ q hq).trans (hkept₁ q (hvm₁ ▸ hq.mapped hinv.p1_injective hmapped₀))
  have hheld₀ : st₁.vm.Lasting s₀.page := .inr ⟨s₀, rfl, hvc₁ ▸ hmapped₀.held⟩
  refine .inr ⟨s₀, s₁, vc₂, st₂, ?_, ?_, hvm₂, ⟨hvm₂ ▸ htmp, ?_, ?_, ?_, ?_, hco₁⟩,
    fun q hq => ⟨hmapped₀.ne_of_lasting hq, ?_, hkept q hq⟩⟩
  · simp [hflat₀, hflat₁]
  · simp [hcached₀, hcached₁]
  · rw [hvm₂, entry_withVCache hinv]
    have hne : ¬ (s₀.1 = s₁.1 ∧ s₀.2 = s₁.2) := fun heq => htmp.ne (Prod.ext heq.1 heq.2)
    exact (hmapped₁.keeps s₀.1 s₀.2 hne hmapped₀.held).1.1
  · rw [hvm₂, entry_withVCache hinv]
    exact hmapped₁.held.1
  · have hp4 : st₂.vm.p4table = st.vm.p4table := by rw [hvm₂]; rfl
    rw [hp4]
    exact (hkept _ hinv.lasting_root.1).coherent me hroot
  · exact (hkept₁ _ hheld₀).coherent me hco₀
  · have hq₁ := hvm₁ ▸ hq.mapped hinv.p1_injective hmapped₀
    exact VCache.Mapped.ne_of_lasting (hvc₁ ▸ hmapped₁) hq₁

/-! ## The whole call -/

/-- A run of the loop.  A page that was mapped and flushed is not disturbed by later iterations. -/
theorem mapPages_refines {detail : Bool} {n i : ℕ} {flags : PageTableFlags}
    (hinv : st.vm.Inv) (hfresh : Disjoint F st.vm.tables) (heq : Equipped me s₀ s₁ st)
    (hout : ∀ q, page.add i = .ok q → ¬ InArea q) :
    Refines (fun st' vm' _ => st'.vm = vm' ∧ Maps me detail s₀ s₁ (visited page i n) st st') M
      (mapPages hw me detail page phys s₀.page s₁.page n i flags st)
      (Virt.mapPages page phys s₀.page s₁.page n i flags st.vm) F := by
  induction n generalizing i flags st F with
  | zero =>
    refine .pure ⟨rfl, heq, ?_, fun _ _ _ _ _ => .refl⟩
    rintro - q ⟨k, hk, hk', -⟩
    omega
  | succ n ih =>
    unfold mapPages Virt.mapPages
    refine Refines.lift_bind fun q hq => Refines.lift_bind fun f _ => ?_
    refine (mapPage_refines hinv hfresh heq (hout q hq)).bind ?_
    rintro ⟨_, st₁⟩ ⟨flags₁, _⟩ F₁ ⟨rfl, rfl, hone⟩ hret
    obtain ⟨-, hev, hkeep, htrans⟩ := mapPage_evolves hinv hfresh heq.temporaries (hout q hq) hret
    have hout' : ∀ q', page.add (i + 1) = .ok q' → ¬ InArea q' := fun q' hq' =>
      not_inArea_succ hq hq' (hout q hq)
    refine (ih hev.inv (hev.fresh hfresh) hone.equipped hout').mono ?_
    rintro st' _ F' ⟨rfl, hrest⟩
    rw [visited_succ hq]
    refine ⟨rfl, hrest.equipped, fun hdetail x hx => ?_, fun x hx hx₀ hx₁ hsome => ?_⟩
    · rcases hx with rfl | hx
      · -- flushed in this iteration, and visited by none of those to come
        have hne : ∀ s : Window, x ≠ s.page := fun s h =>
          hout x hq (h ▸ slotPage_inArea s.1 s.2)
        have hsome : (st₁.vm.translate x).isSome := by rw [htrans]; rfl
        exact (hrest.others x (notMem_visited_of_add_eq_ok hq (Nat.lt_succ_self i)) (hne s₀)
          (hne s₁) hsome).coherent me (hone.flushed hdetail x rfl)
      · exact hrest.flushed hdetail x hx
    · rw [Set.mem_union, not_or] at hx
      have hfirst := hone.others x hx.1 hx₀ hx₁ hsome
      exact hfirst.trans (hrest.others x hx.2 hx₀ hx₁ (hfirst.isSome hsome))

/-- What a call guarantees about the caches when it maps the pages `P`.  A reload of `CR3` leaves
global translations in the cache. -/
structure Flushes (me : ι) (detail : Bool) (P : Set Page) (st st' : Smp ι) : Prop where
  mapped : ∀ q ∈ P, st'.Coherent me q ∨
    detail = false ∧ ∃ t, st'.tlb me q = some t ∧ t.flags.contains .GLOBAL = true
  others : ∀ q ∉ P, st.vm.Lasting q → (st.vm.translate q).isSome → Undisturbed st st' q

/-- `map` computes what it does without caches. -/
theorem map_refines (hw : Hardware ι) (page : Page) (phys : PhysFrame) (size : ℕ)
    (flags : PageTableFlags) (hinv : st.vm.Inv) (hfresh : Disjoint F st.vm.tables)
    (hroot : st.Coherent me st.vm.p4table) :
    Refines (fun x y _ => x.1 = y.1 ∧ x.2.vm = y.2 ∧ (x.1 ≠ .ok () → x.2 = st) ∧
        (x.1 = .ok () → Flushes me (detailFlush page (pageCount size) flags)
          (visited page 0 (pageCount size)) st x.2)) M
      (st.map hw me page phys size flags) (KernelMapper.map st.vm page phys size flags) F := by
  unfold Smp.map KernelMapper.map
  split_ifs with hsize harea
  · exact .pure ⟨rfl, rfl, fun _ => rfl, fun h => nomatch h⟩
  · exact .pure ⟨rfl, rfl, fun _ => rfl, fun h => nomatch h⟩
  · refine Refines.lift_bind fun size' halign => ?_
    obtain ⟨-, rfl⟩ := checkedAlignUp_eq_ok.mp halign
    rw [show alignUp size pageSize / pageSize = pageCount size from rfl]
    rcases mapMany_spec hw hinv hroot with
      ⟨e, hflat, hcached⟩ | ⟨s₀, s₁, vc, st₁, hflat, hcached, hvm₁, heq, hkept⟩
    · rw [hflat, hcached]
      exact .fail
    rw [hflat, hcached]
    simp only [liftM_ok, mk_pure_bind]
    obtain ⟨hev, -⟩ := mapMany_temporaries (F := F) hinv hflat
    rw [← hvm₁] at hev ⊢
    refine (mapPages_refines hev.inv (hev.fresh hfresh) heq (not_inArea_add_zero harea)).bind ?_
    rintro st₂ _ F₂ ⟨rfl, hmaps⟩ -
    -- giving the windows up changes no translation
    unfold Smp.unmapMany
    cases hunmap : st₂.vm.vcache.unmapMany [s₀.page, s₁.page] with
    | error e => exact .fail
    | ok vc' =>
      simp only [except_ok_bind, liftM_ok, mk_pure_bind]
      have hgiven : ∀ q, Undisturbed st₂ (st₂.withVCache hw vc') q := fun q =>
        undisturbed_change (translate_withVCache_of_p1 (VCache.unmapMany_p1 hunmap))
      refine .pure
        ⟨rfl, ?_, fun h => absurd rfl h, fun _ => ⟨fun q hq => ?_, fun q hq hlast hsome => ?_⟩⟩
      · split_ifs <;> rfl
      · split_ifs with hdetail
        · exact .inl ((hgiven q).coherent me (hmaps.flushed hdetail q hq))
        · cases hcache : ((st₂.withVCache hw vc').flushAll hw me).tlb me q with
          | none => exact .inl (.inl hcache)
          | some t => exact .inr ⟨by simpa using hdetail, t, rfl, global_of_flushAll hcache⟩
      · obtain ⟨hq₀, hq₁, hwindows⟩ := hkept q hlast
        have hloop := hwindows.trans (hmaps.others q hq hq₀ hq₁ (hwindows.isSome hsome))
        split_ifs
        · exact hloop.trans (hgiven q)
        · exact (hloop.trans (hgiven q)).trans undisturbed_flushAll

end Smp

end Virt

/-! ## Calls of all cores -/

/-- The memory subsystem with the translation caches of the cores. -/
structure SmpMachine (ι : Type) where
  smp : Smp ι
  pmm : PhysicalFrameAllocator
  owned : List PhysFrame

namespace SmpMachine

variable {ι : Type} [DecidableEq ι] {hw : Hardware ι} {m m' : SmpMachine ι} {me : ι}

/-- The machine without its caches. -/
def flat (m : SmpMachine ι) : Machine := ⟨m.smp.vm, m.pmm, m.owned⟩

/-- One call by a core.  The calls are as in `Machine.Step`. -/
inductive Step (hw : Hardware ι) : SmpMachine ι → ι × MemCall → SmpMachine ι → Prop where
  | palloc {m : SmpMachine ι} {me : ι} {frame : PhysFrame} {pmm' : PhysicalFrameAllocator} :
      m.pmm.allocateFrame = .ok (some frame, pmm') →
      Step hw m (me, .palloc) ⟨m.smp, pmm', frame :: m.owned⟩
  | refused {m : SmpMachine ι} {me : ι} {pmm' : PhysicalFrameAllocator} :
      m.pmm.allocateFrame = .ok (none, pmm') → Step hw m (me, .palloc) ⟨m.smp, pmm', m.owned⟩
  | pfree {m : SmpMachine ι} {me : ι} {frame : PhysFrame} {pmm' : PhysicalFrameAllocator} :
      frame ∈ m.owned → m.pmm.deallocateFrame frame = .ok pmm' →
      Step hw m (me, .pfree frame) ⟨m.smp, pmm', m.owned.erase frame⟩
  | map {m : SmpMachine ι} {me : ι} {page : Page} {phys : PhysFrame} {size : ℕ}
      {flags : PageTableFlags} {r : Except KernelMapError Unit} {smp' : Smp ι}
      {pmm' : PhysicalFrameAllocator} :
      (m.smp.map hw me page phys size flags).run PhysicalFrameAllocator.pool m.pmm =
        .ok ((r, smp'), pmm') →
      Step hw m (me, .map page phys size flags) ⟨smp', pmm', m.owned⟩

/-- The invariant: that of the machine without caches, and every core sees the root table. -/
structure Sane (m : SmpMachine ι) : Prop where
  flat : m.flat.Sane
  root : ∀ i, m.smp.Coherent i m.smp.vm.p4table

/-- A call of the mapper against the allocator, with caches and without. -/
theorem Sane.map_run (h : m.Sane) (hw : Hardware ι) (me : ι) (page : Page) (phys : PhysFrame)
    (size : ℕ) (flags : PageTableFlags) :
    (∃ e, (m.smp.map hw me page phys size flags).run PhysicalFrameAllocator.pool m.pmm = .error e ∧
        (KernelMapper.map m.smp.vm page phys size flags).run PhysicalFrameAllocator.pool m.pmm =
          .error e) ∨
      ∃ r smp' pmm',
        (m.smp.map hw me page phys size flags).run PhysicalFrameAllocator.pool m.pmm =
          .ok ((r, smp'), pmm') ∧
        (KernelMapper.map m.smp.vm page phys size flags).run PhysicalFrameAllocator.pool m.pmm =
          .ok ((r, smp'.vm), pmm') ∧
        (r ≠ .ok () → smp' = m.smp) ∧
        (r = .ok () → Smp.Flushes me (Smp.detailFlush page (pageCount size) flags)
          (visited page 0 (pageCount size)) m.smp smp') := by
  have hrefines := Smp.map_refines (M := m.pmm.managed) hw page phys size flags h.flat.inv
    h.flat.fresh
    (h.root me)
  rcases hrefines.run PhysicalFrameAllocator.freeSet h.flat.sound with
    hfail | ⟨⟨r, smp'⟩, ⟨_, _⟩, pmm', hrun, hflat, rfl, rfl, hrefused, hmapped⟩
  · exact .inl hfail
  · exact .inr ⟨r, smp', pmm', hrun, hflat, hrefused, hmapped⟩

/-- What a call of the mapper that returns has done. -/
theorem Sane.map_ok (h : m.Sane) {page : Page} {phys : PhysFrame} {size : ℕ}
    {flags : PageTableFlags} {r : Except KernelMapError Unit} {smp' : Smp ι}
    {pmm' : PhysicalFrameAllocator}
    (hrun : (m.smp.map hw me page phys size flags).run PhysicalFrameAllocator.pool m.pmm =
      .ok ((r, smp'), pmm')) :
    (KernelMapper.map m.smp.vm page phys size flags).run PhysicalFrameAllocator.pool m.pmm =
        .ok ((r, smp'.vm), pmm') ∧
      (r ≠ .ok () → smp' = m.smp) ∧
      (r = .ok () → Smp.Flushes me (Smp.detailFlush page (pageCount size) flags)
        (visited page 0 (pageCount size)) m.smp smp') := by
  rcases h.map_run hw me page phys size flags with ⟨e, hfail, -⟩ | ⟨r₁, smp₁, pmm₁, hrun₁, hspec⟩
  · rw [hrun] at hfail
    cases hfail
  · obtain ⟨⟨rfl, rfl⟩, rfl⟩ : (r = r₁ ∧ smp' = smp₁) ∧ pmm' = pmm₁ := by
      simpa only [Except.ok.injEq, Prod.mk.injEq] using hrun.symm.trans hrun₁
    exact hspec

omit [DecidableEq ι] in
/-- A call that succeeds maps no page of the virtual cache. -/
theorem Sane.notMem_area (h : m.Sane) {page : Page} {phys : PhysFrame} {size : ℕ}
    {flags : PageTableFlags} {vm' : Vm} {pmm' : PhysicalFrameAllocator}
    (hrun : (KernelMapper.map m.smp.vm page phys size flags).run PhysicalFrameAllocator.pool m.pmm =
      .ok ((.ok (), vm'), pmm')) {q : Page} (hq : q ∈ visited page 0 (pageCount size)) :
    ¬ InArea q := by
  obtain ⟨k, -, hk, hadd⟩ := hq
  obtain ⟨-, hpages⟩ := map_evolves h.flat.inv h.flat.fresh (h.flat.map_returns hrun).1
  obtain ⟨q', -, hadd', -, hout, -⟩ := hpages k (by omega)
  obtain rfl : q = q' := Except.ok.inj (hadd.symm.trans hadd')
  exact hout

/-- Every call is one of the machine without caches, and keeps the invariant. -/
theorem Sane.step {e : ι × MemCall} (h : m.Sane) (hstep : Step hw m e m') :
    Machine.Step m.flat e.2 m'.flat ∧ m'.Sane := by
  cases hstep with
  | palloc halloc => exact ⟨.palloc halloc, (Machine.Step.palloc halloc).sane h.flat, h.root⟩
  | refused halloc => exact ⟨.refused halloc, (Machine.Step.refused halloc).sane h.flat, h.root⟩
  | pfree hmem hfreeing =>
    exact ⟨.pfree hmem hfreeing, (Machine.Step.pfree hmem hfreeing).sane h.flat, h.root⟩
  | @map me page phys size flags r smp' pmm' hrun =>
    obtain ⟨hflat, hrefused, hmapped⟩ := h.map_ok hrun
    have hstep : Machine.Step m.flat (.map page phys size flags) ⟨smp'.vm, pmm', m.owned⟩ :=
      .map hflat
    refine ⟨hstep, hstep.sane h.flat, fun i => ?_⟩
    by_cases hr : r = .ok ()
    · subst hr
      -- the window of the root is not among the pages that were mapped
      obtain ⟨hlast, hsome⟩ := h.flat.inv.lasting_root
      obtain ⟨s, hs, -⟩ := h.flat.inv.root
      have hp4 : smp'.vm.p4table = m.smp.vm.p4table := (h.flat.map_returns hflat).2.2.2.p4table
      have hnot : m.smp.vm.p4table ∉ visited page 0 (pageCount size) := fun hmem =>
        h.notMem_area hflat hmem (hs ▸ slotPage_inArea s.1 s.2)
      have hroot : smp'.Coherent i m.smp.vm.p4table :=
        ((hmapped rfl).others _ hnot hlast hsome).coherent i (h.root i)
      exact hp4 ▸ hroot
    · rw [hrefused hr]
      exact h.root i

/-- Every call that the machine without caches can make can be made with them, on any core. -/
theorem Sane.step_of_flat {me : ι} {call : MemCall} {n : Machine} (h : m.Sane)
    (hstep : Machine.Step m.flat call n) : ∃ m', Step hw m (me, call) m' ∧ m'.flat = n := by
  cases hstep with
  | palloc halloc => exact ⟨_, .palloc halloc, rfl⟩
  | refused halloc => exact ⟨_, .refused halloc, rfl⟩
  | pfree hmem hfreeing => exact ⟨_, .pfree hmem hfreeing, rfl⟩
  | @map page phys size flags r vm' pmm' hrun =>
    rcases h.map_run hw me page phys size flags with
      ⟨e, -, hfail⟩ | ⟨r', smp', pmm'', hrun', hflat, -⟩
    · rw [show m.flat.vm = m.smp.vm from rfl, show m.flat.pmm = m.pmm from rfl, hfail] at hrun
      cases hrun
    · obtain ⟨⟨rfl, rfl⟩, rfl⟩ : (r' = r ∧ smp'.vm = vm') ∧ pmm'' = pmm' := by
        simpa only [Except.ok.injEq, Prod.mk.injEq] using hflat.symm.trans hrun
      exact ⟨_, .map hrun', rfl⟩

/-- **Caches are transparent to the memory subsystem.**  For every behaviour of the hardware, and
however the calls are spread over the cores, exactly those states are reached that the machine
without caches reaches by the same calls. -/
theorem runs_with_caches {es : List (ι × MemCall)} {n : Machine} (hw : Hardware ι) (h : m.Sane) :
    (∃ m', Run (Step hw) m es m' ∧ m'.flat = n) ↔ Run Machine.Step m.flat (es.map Prod.snd) n :=
  Run.map_iff h (fun _ _ _ hI hstep => hI.step hstep) fun _ _ _ hI hstep => hI.step_of_flat hstep

/-- Two cores with empty caches, before the first call. -/
def freshSmp : SmpMachine (Fin 2) := ⟨⟨freshVm, fun _ _ => none, 0⟩, freshPmm, []⟩

theorem freshSmp_sane : freshSmp.Sane :=
  ⟨.start able_fresh.ready.inv able_fresh.sound able_fresh.fresh, fun _ => .inl rfl⟩

/-- Hardware that caches every translation as soon as it can. -/
def eager : Hardware (Fin 2) where
  drift _ vm tlb i := (tlb i).fill vm.translate
  lawful _ _ _ _ := Lookaside.drift_fill

theorem runs_with_caches_fresh : ∃ m', Run (Step eager) freshSmp
    [(1, .map lowPage lowFrame 8000 .WRITABLE)] m' := by
  obtain ⟨n, hrun⟩ := exists_fresh_call .WRITABLE (by decide)
  have hsame : (∃ m', Run (Step eager) freshSmp [(1, .map lowPage lowFrame 8000 .WRITABLE)] m' ∧
      m'.flat = n) ↔ _ := runs_with_caches eager freshSmp_sane
  obtain ⟨m', hcached, -⟩ := hsame.mpr hrun
  exact ⟨m', hcached⟩

/-! ## Stale translations -/

/-- A call that does not map a translated page leaves it alone on every core. -/
theorem Sane.undisturbed {e : ι × MemCall} {q : Page} (h : m.Sane) (hstep : Step hw m e m')
    (hq : ¬ InArea q) (hsome : (m.smp.vm.translate q).isSome)
    (hother : ∀ page phys size flags, e.2 = .map page phys size flags →
      q ∉ visited page 0 (pageCount size)) : m.smp.Undisturbed m'.smp q := by
  cases hstep with
  | palloc => exact .refl
  | refused => exact .refl
  | pfree => exact .refl
  | @map me page phys size flags r smp' pmm' hrun =>
    obtain ⟨-, hrefused, hmapped⟩ := h.map_ok hrun
    by_cases hr : r = .ok ()
    · exact (hmapped hr).others q (hother page phys size flags rfl) (.inl hq) hsome
    · rw [hrefused hr]
      exact .refl

/-- As long as a translated page is not mapped again, it is left alone. -/
theorem Sane.undisturbed_run {es : List (ι × MemCall)} {q : Page} (h : m.Sane)
    (hrun : Run (Step hw) m es m') (hq : ¬ InArea q) (hsome : (m.smp.vm.translate q).isSome)
    (hother : ∀ i page phys size flags, (i, .map page phys size flags) ∈ es →
      q ∉ visited page 0 (pageCount size)) : m.smp.Undisturbed m'.smp q := by
  have hkept := hrun.guarded_mem.preserves (I := fun s => s.Sane ∧ m.smp.Undisturbed s.smp q)
    ⟨h, .refl⟩ fun s₁ e s₂ hI hstep => ?_
  · exact hkept.2
  · refine ⟨(hI.1.step hstep.1).2, hI.2.trans (hI.1.undisturbed hstep.1 hq (hI.2.isSome hsome) ?_)⟩
    rintro page phys size flags hcall
    exact hother e.1 page phys size flags (hcall ▸ hstep.2)

/-- **A core sees what it has mapped.**  After a call of `map` by a core, and any further calls by
all cores that do not map the page again, the core finds behind the page the frame that it asked
for.  Only a global translation from before may have survived, when the call has reloaded `CR3`. -/
theorem mapped_page_seen {es : List (ι × MemCall)} {page q : Page} {phys f : PhysFrame} {size k : ℕ}
    {flags : PageTableFlags} {smp' : Smp ι} {pmm' : PhysicalFrameAllocator} (h : m.Sane)
    (hmap : (m.smp.map hw me page phys size flags).run PhysicalFrameAllocator.pool m.pmm =
      .ok ((.ok (), smp'), pmm'))
    (hk : k < pageCount size) (hq : page.add k = .ok q) (hf : phys.add k = .ok f)
    (hrun : Run (Step hw) ⟨smp', pmm', m.owned⟩ es m')
    (hother : ∀ i page' phys' size' flags', (i, .map page' phys' size' flags') ∈ es →
      q ∉ visited page' 0 (pageCount size')) :
    m'.smp.frameOf me q = .ok f ∨
      Smp.detailFlush page (pageCount size) flags = false ∧
        ∃ t, m'.smp.tlb me q = some t ∧ t.flags.contains .GLOBAL = true := by
  obtain ⟨hflat, -, hmapped⟩ := h.map_ok hmap
  have hmem : q ∈ visited page 0 (pageCount size) := ⟨k, Nat.zero_le k, by omega, hq⟩
  have hout : ¬ InArea q := h.notMem_area hflat hmem
  -- the call has set the translation
  obtain ⟨-, hpages⟩ := map_evolves h.flat.inv h.flat.fresh (h.flat.map_returns hflat).1
  obtain ⟨q', f', hq', hf', -, htrans⟩ := hpages k hk
  obtain rfl : q = q' := Except.ok.inj (hq.symm.trans hq')
  obtain rfl : f = f' := Except.ok.inj (hf.symm.trans hf')
  have hsane : SmpMachine.Sane ⟨smp', pmm', m.owned⟩ := (h.step (.map hmap)).2
  have hkept := hsane.undisturbed_run hrun hout (by rw [htrans]; rfl) hother
  have hframe : m'.smp.Coherent me q → m'.smp.frameOf me q = .ok f := by
    intro hco
    unfold Smp.frameOf
    rw [Lookaside.Coherent.lookup_eq hco, hkept.translate, htrans]
  rcases (hmapped rfl).mapped q hmem with hco | ⟨hdetail, t, ht, hglobal⟩
  · exact .inl (hframe (hkept.coherent me hco))
  · rcases hkept.caches me with hsame | hco
    · exact .inr ⟨hdetail, t, hsame.trans ht, hglobal⟩
    · exact .inl (hframe hco)

theorem mapped_page_seen_fresh : ∃ smp' pmm',
    (freshSmp.smp.map eager 1 lowPage lowFrame 8000 .WRITABLE).run PhysicalFrameAllocator.pool
        freshSmp.pmm = .ok ((.ok (), smp'), pmm') ∧
      smp'.frameOf 1 lowPage = .ok lowFrame := by
  have hable : Able freshVm freshPmm (4089 + 3 * pageCount 8000) := able_fresh
  have hcall : ∃ vm' pmm', (KernelMapper.map freshVm lowPage lowFrame 8000 .WRITABLE).run
      PhysicalFrameAllocator.pool freshPmm = .ok ((.ok (), vm'), pmm') ∧ Able vm' pmm' 4089 :=
    hable.map (by decide) (by decide) (by decide) lowRange_exists (by decide)
  obtain ⟨vm', pmm', hflat, -⟩ := hcall
  rcases freshSmp_sane.map_run eager 1 lowPage lowFrame 8000 .WRITABLE with
    ⟨e, -, hfail⟩ | ⟨r, smp', pmm'', hrun, hflat', -⟩
  · cases hfail.symm.trans hflat
  · obtain ⟨⟨rfl, -⟩, -⟩ : (r = .ok () ∧ smp'.vm = vm') ∧ pmm'' = pmm' := by
      simpa only [Except.ok.injEq, Prod.mk.injEq] using hflat'.symm.trans hflat
    refine ⟨smp', pmm'', hrun, ?_⟩
    have hseen := mapped_page_seen (k := 0) freshSmp_sane hrun (by decide) (Page.add_zero _)
      (PhysFrame.add_zero _) (.nil _) (by simp)
    exact hseen.resolve_right fun h => absurd h.1 (by decide)

end SmpMachine

end HeliumOS.Mem
