import HeliumOS.Lib.AllocRefine
import HeliumOS.Mem.Virt.MapperCorrect
import HeliumOS.Mem.Virt.Smp

/-!
# Translation Caches and the Mapper

One iteration of the loop of `KernelMapper::map` computes what it does without caches, whatever the
caches do by themselves: the mapper accesses tables through windows that its core has flushed.

- `Undisturbed` is what a step does not do to a page: it translates as before, and a cache that was
  coherent there still is.  It composes.
- A page that the call does not map is undisturbed if it has a translation.  A page without one is
  not: a new table is linked before it is cleared, and what it holds until then may be cached.
-/

namespace HeliumOS.Mem.Virt

open HeliumOS.Lib HeliumOS.Lib.Radix HeliumOS.Lib.AllocProg

/-! ## Translations that a store does not change -/

namespace Vm

variable {vm : Vm} {f : PhysFrame} {i : Fin 512} {p : List (Fin 512)} {s : Window} {q : Page}

/-- An unused entry is on the way of no translation. -/
theorem Inv.translate_setEntry_unused (hinv : vm.Inv) (hf : vm.walk p = some f) (hp : p.length < 3)
    (hunused : vm.mem f i = 0) (hq : (vm.translate q).isSome) (w : PageTableEntry) :
    (vm.setEntry f i w).translate q = vm.translate q := by
  have hnone : (vm.mem f i).frame = none := by rw [hunused, PageTableEntry.frame_zero]
  refine congrArg resolve ?_
  simp only [setEntry]
  rcases walk_or_stuck PageTableEntry.frame vm.mem vm.cr3 q.path with
    ⟨t, ht⟩ | ⟨q₁, k, r, h, hpath, hwalk, hstuck⟩
  · have hne : t ≠ f := hinv.tree.ne_of_length_ne q.path_length.le hp.le ht hf (by
      rw [q.path_length]
      omega)
    rw [stop_of_walk ht, stop_of_walk (walk_set_of_unused hnone w ht),
      Store.set_of_ne vm.mem i w hne]
  · -- the walk ends on a huge page, and the unused entry is none
    have hne : ¬ (h = f ∧ k = i) := by
      rintro ⟨rfl, rfl⟩
      rw [translate_eq_none hpath hwalk hunused] at hq
      cases hq
    have hsame : vm.mem.set f i w h k = vm.mem h k := by rw [Store.set_apply, if_neg hne]
    rw [hpath, stop_of_stuck hwalk hstuck,
      stop_of_stuck (walk_set_of_unused hnone w hwalk) (hsame ▸ hstuck), hsame]

/-- A window is seen by its own page only. -/
theorem Inv.translate_setWindow_of_ne (hinv : vm.Inv) (hq : q ≠ s.page) (v : PageTableEntry) :
    (vm.setWindow s v).translate q = vm.translate q := by
  refine congrArg resolve ((hinv.agree_setWindow s v).stop_eq q.path_length fun t ht => ?_)
  simp only [setWindow, setEntry]
  rw [Store.set_apply, if_neg]
  rintro ⟨rfl, hindex⟩
  have hpath := hinv.tree q.path (areaPath s.1) _ q.path_length.le (by simp [areaPath]) ht
    (hinv.wired s.1)
  exact hq (Page.eq_of_path_eq (hpath.trans (slotPage_path s.1 s.2).symm) (by
    rw [hindex, Window.page, slotPage_p1Index]))

/-- A leaf is seen by its own page only. -/
theorem Inv.translate_setLeaf_of_ne (hinv : vm.Inv) {page : Page} {t : PhysFrame}
    (ht : vm.walk page.path = some t) (hq : q ≠ page) (w : PageTableEntry) :
    (vm.setEntry t page.p1Index w).translate q = vm.translate q := by
  refine congrArg resolve ((hinv.agree_setLeaf ht w).stop_eq q.path_length fun t' ht' => ?_)
  simp only [setEntry]
  rw [Store.set_apply, if_neg]
  rintro ⟨rfl, hindex⟩
  exact hq (Page.eq_of_path_eq (hinv.tree _ _ _ q.path_length.le page.path_length.le ht' ht) hindex)

theorem Wired.translate_isSome (hwired : vm.Wired) (h : (vm.entry s).present = true) :
    (vm.translate s.page).isSome := by
  rw [hwired.translate_window, resolve, if_pos h]
  rfl

end Vm

open Vm

/-! ## Steps and caches -/

namespace Smp

variable {ι : Type} {st st' st'' : Smp ι} {q : Page}

/-- The cache of core `i` is not behind the tables at page `q`. -/
def Coherent (st : Smp ι) (i : ι) (q : Page) : Prop :=
  Lookaside.Coherent st.vm.translate (st.tlb i) q

/-- The page translates as before.  A cache holds for it what it held before, unless it is
coherent. -/
structure Undisturbed (st st' : Smp ι) (q : Page) : Prop where
  translate : st'.vm.translate q = st.vm.translate q
  caches : ∀ i, st'.tlb i q = st.tlb i q ∨ st'.Coherent i q

theorem Undisturbed.coherent (h : Undisturbed st st' q) (i : ι) (hi : st.Coherent i q) :
    st'.Coherent i q := by
  refine (h.caches i).elim (fun hsame => ?_) id
  unfold Coherent Lookaside.Coherent
  rw [hsame, h.translate]
  exact hi

theorem Undisturbed.refl : Undisturbed st st q := ⟨rfl, fun _ => .inl rfl⟩

/-- Steps that do not disturb a page can be put one after the other. This is how the steps of the
mapper are composed below, with the moments in which a cache loads or drops an entry by itself in
between. -/
theorem Undisturbed.trans (h : Undisturbed st st' q) (h' : Undisturbed st' st'' q) :
    Undisturbed st st'' q := by
  refine ⟨h'.translate.trans h.translate, fun i => ?_⟩
  rcases h'.caches i with hsame | hco
  · rcases h.caches i with hsame' | hco'
    · exact .inl (hsame.trans hsame')
    · exact .inr (h'.coherent i hco')
  · exact .inr hco

theorem Undisturbed.isSome (h : Undisturbed st st' q) (hq : (st.vm.translate q).isSome) :
    (st'.vm.translate q).isSome := by
  rw [h.translate]
  exact hq

section Primitives

variable {hw : Hardware ι} {me : ι} {s : Window} {f : PhysFrame} {vm' : Vm}

@[simp] theorem settle_vm : (st.settle hw).vm = st.vm := rfl

@[simp] theorem withVm_vm : (st.withVm vm').vm = vm' := rfl

theorem undisturbed_settle : Undisturbed st (st.settle hw) q :=
  ⟨rfl, fun i => hw.lawful st.time st.vm st.tlb i q⟩

theorem undisturbed_withVm (h : vm'.translate q = st.vm.translate q) :
    Undisturbed st (st.withVm vm') q :=
  ⟨h, fun _ => .inl rfl⟩

/-- The caches drift, and then the tables change. -/
theorem undisturbed_change (h : vm'.translate q = st.vm.translate q) :
    Undisturbed st ((st.settle hw).withVm vm') q :=
  undisturbed_settle.trans (undisturbed_withVm h)

/-- A core that is coherent at a page finds what the tables say. -/
theorem frameOf_settle (h : st.Coherent me q) : (st.settle hw).frameOf me q = st.vm.frameOf q := by
  have hco : (st.settle hw).Coherent me q := undisturbed_settle.coherent me h
  have hlook := Lookaside.Coherent.lookup_eq hco
  rw [settle_vm] at hlook
  cases htranslate : st.vm.translate q <;>
    simp only [Smp.frameOf, Vm.frameOf, hlook, settle_vm, htranslate]

theorem read_window (hco : st.Coherent me s.page) (hwired : st.vm.Wired) (h : st.vm.Shows s f)
    (i : Fin 512) : st.read hw me s.page i = .ok (st.vm.mem f i, st.settle hw) := by
  simp only [Smp.read, frameOf_settle hco, hwired.frameOf_window h, except_ok_bind, settle_vm]

theorem write_window (hco : st.Coherent me s.page) (hwired : st.vm.Wired) (h : st.vm.Shows s f)
    (i : Fin 512) (w : PageTableEntry) :
    st.write hw me s.page i w = .ok ((st.settle hw).withVm (st.vm.setEntry f i w)) := by
  simp only [Smp.write, frameOf_settle hco, hwired.frameOf_window h, except_ok_bind, settle_vm]

theorem clear_window (hco : st.Coherent me s.page) (hwired : st.vm.Wired) (h : st.vm.Shows s f) :
    st.clear hw me s.page = .ok ((st.settle hw).withVm (st.vm.clearFrame f)) := by
  simp only [Smp.clear, frameOf_settle hco, hwired.frameOf_window h, except_ok_bind, settle_vm]

variable [DecidableEq ι]

@[simp] theorem invlpg_vm {page : Page} : (st.invlpg hw me page).vm = st.vm := rfl

@[simp] theorem flushAll_vm : (st.flushAll hw me).vm = st.vm := rfl

theorem undisturbed_invlpg (page : Page) : Undisturbed st (st.invlpg hw me page) q := by
  have hsettled : Undisturbed st (st.settle hw) q := undisturbed_settle
  refine hsettled.trans ⟨rfl, fun i => ?_⟩
  by_cases h : i = me
  · subst h
    simp only [Coherent, Smp.invlpg, Function.update_self]
    exact Lookaside.flush_eq_or
  · exact .inl (by simp only [Smp.invlpg, Function.update_of_ne h])

theorem coherent_invlpg_self : (st.invlpg hw me q).Coherent me q := by
  simp only [Coherent, Smp.invlpg, Function.update_self]
  exact Lookaside.coherent_flush_self

theorem undisturbed_flushAll : Undisturbed st (st.flushAll hw me) q := by
  have hsettled : Undisturbed st (st.settle hw) q := undisturbed_settle
  refine hsettled.trans ⟨rfl, fun i => ?_⟩
  by_cases h : i = me
  · subst h
    simp only [Coherent, Smp.flushAll, Function.update_self]
    exact Lookaside.keepOnly_eq_or
  · exact .inl (by simp only [Smp.flushAll, Function.update_of_ne h])

/-- Only global translations survive. -/
theorem global_of_flushAll {t : Translation} (h : (st.flushAll hw me).tlb me q = some t) :
    t.flags.contains .GLOBAL = true := by
  simp only [Smp.flushAll, Function.update_self] at h
  have hkept := Lookaside.keepOnly_eq_some h
  exact hkept

/-- Pointing a window elsewhere: the core that does it is coherent there afterwards. -/
theorem remap_window (st : Smp ι) (hw : Hardware ι) (me : ι) (hinj : Function.Injective st.vm.p1)
    (s : Window) (g : PhysFrame) :
    ∃ st', st.remap hw me s.page g = .ok st' ∧
      st'.vm = st.vm.setWindow s (VCache.remapEntry (st.vm.entry s) g) ∧
      (st.Coherent me s.page → st'.Coherent me s.page) ∧
      ∀ q, st'.vm.translate q = st.vm.translate q → Undisturbed st st' q := by
  simp only [Smp.remap, Window.page, slotPage_inArea, not_true_eq_false, if_false, p2Group_slotPage,
    except_ok_bind, slotPage_p1Index]
  split_ifs with hsame
  · -- the window shows the frame already: nothing is written, and nothing is flushed
    refine ⟨_, rfl, ?_, undisturbed_settle.coherent me, fun q _ => undisturbed_settle⟩
    have hentry : VCache.remapEntry (st.vm.entry s) g = st.vm.entry s := if_pos hsame
    rw [hentry, Vm.setWindow, Vm.setEntry, Vm.entry, Store.set_eq_self, settle_vm]
  · have hentry : VCache.remapEntry (st.vm.entry s) g = windowEntry g := if_neg hsame
    have hvm : st.vm.withVCache { st.vm.vcache with
        p1 := st.vm.vcache.p1.set s.1 s.2 (windowEntry g) } =
          st.vm.setWindow s (windowEntry g) := by
      have hmem := withVCache_mem_set hinj (st.vm.vcache.setSlot s (windowEntry g)) rfl
      simp only [Vm.setWindow, Vm.setEntry]
      rw [← hmem]
      rfl
    refine ⟨_, rfl, by rw [hentry]; exact hvm, fun _ => coherent_invlpg_self, fun q hq => ?_⟩
    exact (undisturbed_change hq).trans (undisturbed_invlpg _)

end Primitives

/-! ## One level of the descent -/

section Descent

variable [DecidableEq ι] {hw : Hardware ι} {me : ι} {M F : Set PhysFrame} {f : PhysFrame}
  {i : Fin 512}
  {p : List (Fin 512)} {e s : Window}

omit [DecidableEq ι] in
/-- A table is linked from an unused entry.  Its frame is still as it was. -/
theorem allocSubstruct_spec (hw : Hardware ι) (hco : st.Coherent me e.page) (hinv : st.vm.Inv)
    (hf : st.vm.walk p = some f) (hp : p.length < 3) (he : st.vm.Shows e f)
    (hunused : st.vm.mem f i = 0) {flags : PageTableFlags}
    (hflags : flags.contains .HUGE_PAGE = false) :
    ∃ next : PhysFrame → Smp ι,
      st.allocSubstruct hw me ⟨e.page, i⟩ flags false = .acquire (fun
        | none => .fail .outOfFrames
        | some g => .pure (g, next g)) ∧
      ∀ g, (next g).vm = st.vm.setEntry f i (.ofFrame g flags) ∧
        ∀ q, (st.vm.translate q).isSome → Undisturbed st (next g) q := by
  -- the entry is zero, and writing zero to it changes nothing
  have hzero : st.vm.setEntry f i 0 = st.vm := by
    rw [Vm.setEntry, ← hunused, Store.set_eq_self]
  have hco' : (st.settle hw).Coherent me e.page := undisturbed_settle.coherent me hco
  refine ⟨fun g => ((st.settle hw).settle hw).withVm (st.vm.setEntry f i (.ofFrame g flags)),
    ?_, fun g => ⟨rfl, fun q hq => ?_⟩⟩
  -- the source clears the entry first and then writes it, so there are two stores
  · unfold Smp.allocSubstruct AllocProg.get
    rw [acquire_bind]
    congr 1
    funext r
    cases r with
    | none => rfl
    | some g =>
      have hset : PageTableEntry.setFrame g flags = .ok (.ofFrame g flags) :=
        PageTableEntry.setFrame_eq_ok.mpr ⟨hflags, rfl⟩
      have hfirst : st.write hw me e.page i 0 = .ok (st.settle hw) := by
        rw [write_window hco hinv.wired he, hzero]
        rfl
      have hsecond : (st.settle hw).write hw me e.page i (.ofFrame g flags) =
          .ok (((st.settle hw).settle hw).withVm (st.vm.setEntry f i (.ofFrame g flags))) :=
        write_window hco' hinv.wired he i _
      simp only [Bool.false_eq_true, if_false, liftM_ok, mk_pure_bind, hset, hfirst, hsecond]
      rfl
  · exact undisturbed_settle.trans (undisturbed_change
      (hinv.translate_setEntry_unused hf hp hunused hq _))

/-- What one level of the descent guarantees about the caches. -/
structure Descends (me : ι) (s : Window) (st st' : Smp ι) : Prop where
  window : st'.Coherent me s.page
  others : ∀ q, q ≠ s.page → (st.vm.translate q).isSome → Undisturbed st st' q

/-- The rest of a level in which a table was created: its entry is read back, the window moves to
it, and it is cleared.  Until then its frame is part of the tables with whatever it holds. -/
theorem attach_spec (hw : Hardware ι) {st₁ : Smp ι} {g : PhysFrame} {w : PageTableEntry}
    (hinv : st.vm.Inv) (hf : st.vm.walk p = some f) (hp : p.length < 3) (he : st.vm.Shows e f)
    (hco : st.Coherent me e.page) (hunused : st.vm.mem f i = 0) (hs : st.vm.p4table ≠ s.page)
    (hpresent : (st.vm.entry s).present = true) (hcs : st.Coherent me s.page)
    (hg : g ∉ st.vm.tables) (hw' : w.frame = some g) (hvm : st₁.vm = st.vm.setEntry f i w)
    (hst₁ : ∀ q, (st.vm.translate q).isSome → Undisturbed st st₁ q) :
    ∃ st₂ st₃, st₁.read hw me e.page i = .ok (w, st₁.settle hw) ∧
      (st₁.settle hw).remap hw me s.page g = .ok st₂ ∧ st₂.clear hw me s.page = .ok st₃ ∧
      st₃.vm = (st.vm.setWindow s (VCache.remapEntry (st.vm.entry s) g)).linkTable f i w g ∧
      Descends me s st st₃ := by
  have hne := hinv.p1_ne hf hp
  have hnone : (st.vm.mem f i).frame = none := by rw [hunused, PageTableEntry.frame_zero]
  -- reading the entry back, through a window that is as it was
  have hesome : (st.vm.translate e.page).isSome := hinv.wired.translate_isSome he.1
  have hread : st₁.read hw me e.page i = .ok (w, st₁.settle hw) := by
    have hwired : st₁.vm.Wired := hvm ▸ hinv.wired_setEntry hnone w
    have hshows : st₁.vm.Shows e f := hvm ▸ (shows_setEntry st.vm (hne e.1) w).mpr he
    rw [read_window ((hst₁ _ hesome).coherent me hco) hwired hshows, hvm]
    simp [Vm.setEntry]
  -- moving the window
  have hinj : Function.Injective (st₁.settle hw).vm.p1 := by
    rw [settle_vm, hvm]
    exact hinv.p1_injective
  have hentry : st₁.vm.entry s = st.vm.entry s := by
    rw [hvm]
    simp only [Vm.entry, Vm.setEntry, Store.set_of_ne st.vm.mem i w (hne s.1)]
  obtain ⟨st₂, hremap, hvm₂, hwindow, hothers⟩ :=
    remap_window (st₁.settle hw) hw me hinj s g
  obtain ⟨v, hv⟩ : ∃ v, v = VCache.remapEntry (st.vm.entry s) g := ⟨_, rfl⟩
  rw [settle_vm, hentry, ← hv, hvm, setEntry_setWindow (hne s.1)] at hvm₂
  have hssome : (st.vm.translate s.page).isSome := hinv.wired.translate_isSome hpresent
  have hcs₂ : st₂.Coherent me s.page :=
    hwindow (undisturbed_settle.coherent me ((hst₁ _ hssome).coherent me hcs))
  -- the tables with the window moved, in which the new table is linked
  obtain ⟨hev, -⟩ := evolves_setWindow (F := ∅) hinv hs (v := v)
    (hv ▸ VCache.present_remapEntry (st.vm.entry s) g)
  have hunused' : (st.vm.setWindow s v).mem f i = 0 := by rw [hinv.mem_setWindow hf hp, hunused]
  have hf' : (st.vm.setWindow s v).walk p = some f := hev.walk p f hp.le hf
  have htranslate : ∀ q, q ≠ s.page → (st.vm.translate q).isSome →
      st₂.vm.translate q = st.vm.translate q := by
    intro q hq hsome
    have hmoved := hinv.translate_setWindow_of_ne hq v
    rw [hvm₂, hev.inv.translate_setEntry_unused hf' hp hunused' (hmoved ▸ hsome), hmoved]
  -- clearing the table through the window
  have hclear : st₂.clear hw me s.page =
      .ok ((st₂.settle hw).withVm ((st.vm.setWindow s v).linkTable f i w g)) := by
    have hwired : st₂.vm.Wired :=
      hvm₂ ▸ hev.inv.wired_setEntry (by rw [hunused', PageTableEntry.frame_zero]) w
    have hshows : st₂.vm.Shows s g := by
      have hself := shows_setWindow_self st.vm s (VCache.present_remapEntry (st.vm.entry s) g)
      rw [VCache.addr_remapEntry, ← hv] at hself
      exact hvm₂ ▸ (shows_setEntry (st.vm.setWindow s v) (hne s.1) w).mpr hself
    rw [clear_window hcs₂ hwired hshows, hvm₂]
    rfl
  have hsite : LinkSite PageTableEntry.frame (st.vm.setWindow s v).mem st.vm.cr3 3 p f i w g 0 :=
    { depth := hp
      at_path := hf'
      unused := by rw [hunused', PageTableEntry.frame_zero]
      fresh := fun hmem => hg ((hev.tables hmem).resolve_right fun h => h.1)
      points := hw'
      empty := PageTableEntry.frame_zero }
  have hcleared : ∀ q, ((st.vm.setWindow s v).translate q).isSome →
      ((st.vm.setWindow s v).linkTable f i w g).translate q = st₂.vm.translate q := by
    intro q hsome
    rw [translate_linkTable hev.inv.tree hsite hunused', hvm₂,
      hev.inv.translate_setEntry_unused hf' hp hunused' hsome]
  refine ⟨st₂, _, hread, hremap, hclear, by rw [← hv]; rfl, ?_, fun q hq hsome => ?_⟩
  · have hshown : ((st.vm.setWindow s v).translate s.page).isSome := by
      refine hev.inv.wired.translate_isSome ?_
      rw [hv]
      exact (shows_setWindow_self st.vm s (VCache.present_remapEntry (st.vm.entry s) g)).1
    exact (undisturbed_change (hcleared _ hshown)).coherent me hcs₂
  · have hkept := hst₁ q hsome
    have hmoved : Undisturbed (st₁.settle hw) st₂ q :=
      hothers q ((htranslate q hq hsome).trans hkept.translate.symm)
    have hsome' : ((st.vm.setWindow s v).translate q).isSome := by
      rw [hinv.translate_setWindow_of_ne hq]
      exact hsome
    exact ((hkept.trans undisturbed_settle).trans hmoved).trans
      (undisturbed_change (hcleared q hsome'))

/-- One level of the descent computes what it does without caches. -/
theorem ensureAllocated_refines (hinv : st.vm.Inv) (hfresh : Disjoint F st.vm.tables)
    (hf : st.vm.walk p = some f) (hp : p.length < 3) (he : st.vm.Shows e f)
    (hco : st.Coherent me e.page) (hs : st.vm.p4table ≠ s.page)
    (hpresent : (st.vm.entry s).present = true) (hcs : st.Coherent me s.page) (page : Page) :
    Refines (fun st' vm' _ => st'.vm = vm' ∧ Descends me s st st') M
      (st.ensureAllocated hw me ⟨e.page, i⟩ page s.page)
      (Virt.ensureAllocated st.vm ⟨e.page, i⟩ page s.page) F := by
  rw [ensureAllocated_eq hinv hf hp he page s]
  unfold Smp.ensureAllocated Smp.allocateIfUnused
  simp only [read_window hco hinv.wired he, liftM_ok, mk_pure_bind, PageTableEntry.isUnused,
    beq_iff_eq]
  have hco' : (st.settle hw).Coherent me e.page := undisturbed_settle.coherent me hco
  split_ifs with hunused
  -- the table is missing, and a frame is asked for
  · obtain ⟨next, halloc, hnext⟩ := allocSubstruct_spec hw hco' hinv hf hp he hunused
      (tableFlags_spec page).2
    rw [halloc]
    simp only [acquire_bind]
    refine .acquire (fun g hg => ?_) fun _ => .fail
    obtain ⟨hvm, hkept⟩ := hnext g
    have hframe := PageTableEntry.frame_ofFrame g (tableFlags_spec page).1 (tableFlags_spec page).2
    obtain ⟨st₂, st₃, hread, hremap, hclear, hvm₃, hdesc⟩ := attach_spec hw hinv hf hp he hco
      hunused hs hpresent hcs (Set.disjoint_left.mp hfresh hg) hframe hvm
      fun q hq => undisturbed_settle.trans (hkept q hq)
    simp only [mk_pure_bind, pure_bind', hread, liftM_ok, hframe, unwrap_some, hremap, hclear,
      if_true]
    exact .pure ⟨hvm₃, hdesc⟩
  -- the table is there, so that only the window moves
  · simp only [pure_bind', read_window hco' hinv.wired he, liftM_ok, mk_pure_bind, settle_vm]
    cases hframe : (st.vm.mem f i).frame with
    | none => exact .fail
    | some g =>
      have hcs' : ((st.settle hw).settle hw).Coherent me s.page :=
        (undisturbed_settle.trans undisturbed_settle).coherent me hcs
      obtain ⟨st', hremap, hvm, hwindow, hothers⟩ :=
        remap_window ((st.settle hw).settle hw) hw me hinv.p1_injective s g
      simp only [unwrap_some, liftM_ok, mk_pure_bind, hremap, Bool.false_eq_true, if_false]
      refine .pure ⟨hvm, hwindow hcs', fun q hq _ => ?_⟩
      refine (undisturbed_settle.trans undisturbed_settle).trans (hothers q ?_)
      rw [hvm]
      exact hinv.translate_setWindow_of_ne hq _

end Descent

/-! ## One iteration of the loop -/

section Loop

variable {me : ι} {s₀ s₁ : Window} {F F' : Set PhysFrame} {P : Set Page}

/-- What the core needs while `map` runs: its two windows are in place, and its cache is behind
neither of them nor the window of the root. -/
structure Equipped (me : ι) (s₀ s₁ : Window) (st : Smp ι) : Prop where
  temporaries : Temporaries st.vm s₀ s₁
  present₀ : (st.vm.entry s₀).present = true
  present₁ : (st.vm.entry s₁).present = true
  root : st.Coherent me st.vm.p4table
  window₀ : st.Coherent me s₀.page
  window₁ : st.Coherent me s₁.page

theorem Equipped.symm (h : Equipped me s₀ s₁ st) : Equipped me s₁ s₀ st :=
  ⟨⟨h.temporaries.ne.symm, h.temporaries.notRoot₁, h.temporaries.notRoot₀, h.temporaries.age₁,
    h.temporaries.age₀⟩, h.present₁, h.present₀, h.root, h.window₁, h.window₀⟩

/-- A step that leaves the window of the root and the second window undisturbed. -/
theorem Equipped.step (h : Equipped me s₀ s₁ st) (hinv : st.vm.Inv)
    (hev : Evolves st.vm st'.vm F F' P) (hkeep : KeepsWindows st.vm st'.vm {s₀})
    (hwindow : st'.Coherent me s₀.page)
    (hothers : ∀ q, InArea q → q ≠ s₀.page → (st.vm.translate q).isSome → Undisturbed st st' q) :
    Equipped me s₀ s₁ st' := by
  obtain ⟨r, hr, hroot⟩ := hinv.root
  have hne : s₁.page ≠ s₀.page := fun heq => h.temporaries.ne (Window.page_injective heq).symm
  refine ⟨h.temporaries.of_keeps hev hkeep, hkeep.present s₀ rfl h.present₀, ?_, ?_, hwindow, ?_⟩
  · rw [hkeep.entries s₁ h.temporaries.ne.symm]
    exact h.present₁
  · rw [hev.p4table]
    have hsome : (st.vm.translate st.vm.p4table).isSome :=
      hr ▸ hinv.wired.translate_isSome hroot.1.1
    exact (hothers _ (hr ▸ slotPage_inArea r.1 r.2) h.temporaries.notRoot₀ hsome).coherent me h.root
  · have hsome := hinv.wired.translate_isSome h.present₁
    exact (hothers _ (slotPage_inArea s₁.1 s₁.2) hne hsome).coherent me h.window₁

theorem Equipped.congr (h : Equipped me s₀ s₁ st) (hvm : st'.vm = st.vm)
    (hothers : ∀ q, Undisturbed st st' q) : Equipped me s₀ s₁ st' where
  temporaries := hvm ▸ h.temporaries
  present₀ := hvm ▸ h.present₀
  present₁ := hvm ▸ h.present₁
  root := hvm ▸ (hothers _).coherent me h.root
  window₀ := (hothers _).coherent me h.window₀
  window₁ := (hothers _).coherent me h.window₁

/-- What the loop guarantees about the caches after it has mapped the pages `P`. -/
structure Maps (me : ι) (detail : Bool) (s₀ s₁ : Window) (P : Set Page) (st st' : Smp ι) :
    Prop where
  equipped : Equipped me s₀ s₁ st'
  flushed : detail = true → ∀ q ∈ P, st'.Coherent me q
  others : ∀ q ∉ P, q ≠ s₀.page → q ≠ s₁.page → (st.vm.translate q).isSome → Undisturbed st st' q

variable [DecidableEq ι] {hw : Hardware ι} {M : Set PhysFrame} {page : Page}

/-- One iteration: three levels of the descent, the entry, and the flush of the page. -/
theorem mapPage_refines {frame : PhysFrame} {flags : PageTableFlags} {detail : Bool}
    (hinv : st.vm.Inv) (hfresh : Disjoint F st.vm.tables) (heq : Equipped me s₀ s₁ st)
    (hpage : ¬ InArea page) :
    Refines (fun x y _ => x.1 = y.1 ∧ x.2.vm = y.2 ∧ Maps me detail s₀ s₁ {page} st x.2) M
      (st.mapPage hw me detail page frame flags s₀.page s₁.page)
      (Virt.mapPage st.vm page frame flags s₀.page s₁.page) F := by
  obtain ⟨r, hr, hroot⟩ := hinv.root
  unfold Smp.mapPage Virt.mapPage
  rw [hr]
  -- P3 through the window of the root
  refine (ensureAllocated_refines (p := []) hinv hfresh rfl (by decide) hroot.1 (hr ▸ heq.root)
    heq.temporaries.notRoot₀ heq.present₀ heq.window₀ page).bind ?_
  rintro st₁ _ F₁ ⟨rfl, hd₁⟩ hret₁
  obtain ⟨g₁, hw₁, ho₁, hev₁, hk₁⟩ := ensureAllocated_evolves (p := []) hinv hfresh rfl
    (by decide) hroot.1 heq.temporaries.notRoot₀ heq.temporaries.age₀ hret₁
  have heq₁ := heq.step hinv hev₁ hk₁ hd₁.window fun q _ => hd₁.others q
  -- P2 through the first window
  refine (ensureAllocated_refines hev₁.inv (hev₁.fresh hfresh) hw₁ (by simp) ho₁.1 heq₁.window₀
    heq₁.temporaries.notRoot₁ heq₁.present₁ heq₁.window₁ page).bind ?_
  rintro st₂ _ F₂ ⟨rfl, hd₂⟩ hret₂
  obtain ⟨g₂, hw₂, ho₂, hev₂, hk₂⟩ := ensureAllocated_evolves hev₁.inv (hev₁.fresh hfresh) hw₁
    (by simp) ho₁.1 heq₁.temporaries.notRoot₁ heq₁.temporaries.age₁ hret₂
  have heq₂ := (heq₁.symm.step hev₁.inv hev₂ hk₂ hd₂.window fun q _ => hd₂.others q).symm
  have hev₁₂ := hev₁.trans hev₂
  -- P1 through the second window
  refine (ensureAllocated_refines hev₂.inv (hev₁₂.fresh hfresh) hw₂ (by simp) ho₂.1 heq₂.window₁
    heq₂.temporaries.notRoot₀ heq₂.present₀ heq₂.window₀ page).bind ?_
  rintro st₃ _ F₃ ⟨rfl, hd₃⟩ hret₃
  obtain ⟨g₃, hw₃, ho₃, hev₃, hk₃⟩ := ensureAllocated_evolves hev₂.inv (hev₁₂.fresh hfresh) hw₂
    (by simp) ho₂.1 heq₂.temporaries.notRoot₀ heq₂.temporaries.age₀ hret₃
  have heq₃ := heq₂.step hev₂.inv hev₃ hk₃ hd₃.window fun q _ => hd₃.others q
  -- the leaf
  refine Refines.lift_bind fun w _ => ?_
  rw [write_window heq₃.window₀ hev₃.inv.wired ho₃.1, hev₃.inv.wired.write_window ho₃.1]
  obtain ⟨hev₄, hk₄, -⟩ := evolves_setLeaf (F := F₃) hev₃.inv hpage (t := g₃) hw₃ w
  have hleaf : ∀ q, q ≠ page → Undisturbed st₃
      ((st₃.settle hw).withVm (st₃.vm.setEntry g₃ page.p1Index w)) q := fun q hq =>
    undisturbed_change (hev₃.inv.translate_setLeaf_of_ne hw₃ hq w)
  have hne : ∀ s : Window, s.page ≠ page := fun s h => hpage (h ▸ slotPage_inArea s.1 s.2)
  have hthree : ∀ q, q ≠ page → q ≠ s₀.page → q ≠ s₁.page → (st.vm.translate q).isSome →
      Undisturbed st ((st₃.settle hw).withVm (st₃.vm.setEntry g₃ page.p1Index w)) q := by
    intro q hq hq₀ hq₁ hsome
    have hu₁ := hd₁.others q hq₀ hsome
    have hu₂ := hu₁.trans (hd₂.others q hq₁ (hu₁.isSome hsome))
    exact (hu₂.trans (hd₃.others q hq₀ (hu₂.isSome hsome))).trans (hleaf q hq)
  have heq₄ : Equipped me s₀ s₁ ((st₃.settle hw).withVm (st₃.vm.setEntry g₃ page.p1Index w)) :=
    heq₃.step hev₃.inv hev₄ (hk₄.mono (Set.empty_subset _))
      ((hleaf _ (hne s₀)).coherent me heq₃.window₀)
      fun q harea _ _ => hleaf q fun h => hpage (h ▸ harea)
  -- tables, windows, the flushed page, and all other pages
  refine .pure ⟨rfl, ?_, ?_, ?_, ?_⟩
  · split_ifs <;> rfl
  · split_ifs with hdetail
    · exact heq₄.congr rfl fun _ => undisturbed_invlpg page
    · exact heq₄
  · rintro hdetail _ rfl
    simp only [hdetail, if_true]
    exact coherent_invlpg_self
  · intro q hq hq₀ hq₁ hsome
    split_ifs with hdetail
    · exact (hthree q hq hq₀ hq₁ hsome).trans (undisturbed_invlpg page)
    · exact hthree q hq hq₀ hq₁ hsome

end Loop

end Smp

end HeliumOS.Mem.Virt
