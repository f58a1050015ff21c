import HeliumOS.Mem.Machine
import HeliumOS.Mem.Virt.VCacheRuns

/-!
# The Windows of the Mapper

Every call of `KernelMapper::map` is a session with the virtual cache: it takes two windows,
points them at one table after another, and gives both up.  After about a thousand sessions every
window has been used, and each further one relies on lazy windows being reclaimed.

- `bootWindows`: the state in which `vcache::init` and `mapper::init` leave the cache.
- `Session.Good` is the invariant of sessions.  The first five windows stay as they are, and all
  others are free or lazy between two sessions.
- `mapPages_sessions`, `map_sessions`: the mapper does nothing to the cache but hold sessions.
-/

namespace HeliumOS.Mem.Virt

open HeliumOS.Lib HeliumOS.Lib.AllocProg HeliumOS.Lib.Radix

/-! ## The first windows -/

/-- The loop of `vcache::init` that maps the P1 tables, from iteration `i` on with `n` iterations
to go.  The tables are expected in consecutive frames, and their windows in consecutive pages. -/
def initWindows (p1Frame : PhysFrame) : ℕ → ℕ → VCache → Except Panic VCache
  | 0, _, vc => .ok vc
  | n + 1, i, vc => do
    let frame ← p1Frame.add i
    let (page, vc) ← vc.map frame
    let page ← unwrap .vcacheInitMap page
    ensure .vcacheInitOrder (page.num = kvmspace.num + i)
    initWindows p1Frame n (i + 1) vc

/-- The windows that `vcache::init` and then `mapper::init` map: the four P1 tables of the cache,
and the P4 table.  The result has the page of the P4 table. -/
def bootWindows (p1Frame p4Frame : PhysFrame) : Except Panic (Page × VCache) := do
  let vc ← initWindows p1Frame 4 0 .initial
  let (page, vc) ← vc.map p4Frame
  let page ← unwrap .mapperInit page
  .ok (page, vc)

/-- The cache whose first windows show the given frames, and which was not used otherwise. -/
def bootCache (frames : List PhysFrame) : VCache where
  p1 i j := if i.val = 0 then (frames[j.val]?.map windowEntry).getD 0 else 0
  state :=
    { p2Freecount := fun i => if i.val = 0 then 512 - frames.length else 512
      p2Lazycount := fun _ => 0
      p1Age := fun _ _ => 0 }

section Boot

variable {frames : List PhysFrame}

theorem bootCache_nil : bootCache [] = .initial := by
  simp [bootCache, VCache.initial, VCacheState.new]

theorem present_bootCache (i : Fin 4) (j : Fin 512) :
    ((bootCache frames).p1 i j).present = decide (i.val = 0 ∧ j.val < frames.length) := by
  simp only [bootCache]
  split_ifs with hi
  · by_cases hj : j.val < frames.length
    · simp [hi, hj]
    · rw [List.getElem?_eq_none (by omega)]
      simp [hi, hj]
  · simp [hi]

theorem p1_bootCache_snoc (hlen : frames.length < 512) (f : PhysFrame) :
    (bootCache frames).p1.set 0 ⟨frames.length, hlen⟩ (windowEntry f) =
      (bootCache (frames ++ [f])).p1 := by
  funext i j
  rw [Store.set_apply]
  simp only [bootCache, Fin.ext_iff]
  by_cases hi : i.val = 0
  · rcases Nat.lt_trichotomy j.val frames.length with hj | hj | hj
    · simp [hi, hj.ne, List.getElem?_append_left hj]
    · simp [hi, hj]
    · rw [List.getElem?_eq_none hj.le, List.getElem?_eq_none (by rw [List.length_append]; exact hj)]
      simp [hj.ne']
  · simp [hi]

theorem freecount_bootCache_snoc (f : PhysFrame) :
    Function.update (bootCache frames).state.p2Freecount 0 (512 - frames.length - 1) =
      (bootCache (frames ++ [f])).state.p2Freecount := by
  funext i
  by_cases hi : i = 0
  · subst hi
    simp [bootCache, Nat.sub_sub]
  · simp [bootCache, hi]

/-- The search of `map` stops at the first window that shows no frame. -/
theorem find_bootCache (hlen : frames.length < 512) :
    (List.finRange 512).find? (fun j => !((bootCache frames).p1 0 j).present) =
      some ⟨frames.length, hlen⟩ := by
  rw [List.find?_eq_some_iff_getElem]
  refine ⟨by simp [present_bootCache], frames.length, by simpa using hlen, by simp, ?_⟩
  intro k hk
  simp [present_bootCache, hk]

/-- Mapping a frame takes the next window. -/
theorem map_bootCache (hlen : frames.length < 512) (f : PhysFrame) :
    (bootCache frames).map f =
      .ok (some (slotPage 0 ⟨frames.length, hlen⟩), bootCache (frames ++ [f])) := by
  have hcount : (bootCache frames).state.p2Freecount 0 = 512 - frames.length := rfl
  -- the first table has a free window, so that nothing is reclaimed
  have hfind : findFree (bootCache frames).state (List.finRange 4) none = (some 0, some 0) := by
    rw [show List.finRange 4 = 0 :: [1, 2, 3] by decide]
    have hne : ¬ (512 - frames.length = 0) := by omega
    simp [findFree, hne, bootCache]
  have hsub : checkedSub Panic.freecountUnderflow (512 - frames.length) 1 =
      .ok (512 - frames.length - 1) := checkedSub_eq_ok.mpr ⟨by omega, rfl⟩
  have hage : (bootCache frames).state.p1Age.set 0 ⟨frames.length, hlen⟩ 0 =
      (bootCache (frames ++ [f])).state.p1Age := Store.set_eq_self _ _ _
  simp only [VCache.map, hfind, VCache.takeSlot, VCache.chooseSlot, find_bootCache hlen,
    hcount, hsub, unwrap_some, except_ok_bind, Except.ok.injEq, Prod.mk.injEq, true_and]
  rw [p1_bootCache_snoc, freecount_bootCache_snoc, hage]
  rfl

/-- If the loop ends, it has mapped consecutive frames into consecutive windows. -/
theorem initWindows_eq_ok {p1Frame : PhysFrame} {n : ℕ} {vc : VCache}
    (hlen : frames.length + n ≤ 512)
    (h : initWindows p1Frame n frames.length (bootCache frames) = .ok vc) :
    ∃ new : List PhysFrame, vc = bootCache (frames ++ new) ∧ new.length = n ∧
      ∀ k f, new[k]? = some f → f.num = p1Frame.num + (frames.length + k) := by
  induction n generalizing frames with
  | zero =>
    simp only [initWindows, Except.ok.injEq] at h
    exact ⟨[], by rw [List.append_nil, h], rfl, by simp⟩
  | succ n ih =>
    simp only [initWindows, except_bind_eq_ok, PhysFrame.add_eq_ok] at h
    obtain ⟨f, hf, h⟩ := h
    -- one iteration takes the next window, so that the assertion on its page holds
    rw [map_bootCache (by omega)] at h
    simp only [Except.ok.injEq, exists_eq_left', unwrap_some, ensure_eq_ok] at h
    obtain ⟨-, -, h⟩ := h
    have hlen' : (frames ++ [f]).length = frames.length + 1 := by simp
    rw [← hlen'] at h
    obtain ⟨new, rfl, rfl, hnew⟩ := ih (by omega) h
    refine ⟨f :: new, by simp, rfl, fun k g hk => ?_⟩
    cases k with
    | zero =>
      obtain rfl : f = g := by simpa using hk
      rw [hf, Nat.add_zero]
    | succ k =>
      rw [hnew k g (by simpa using hk), hlen']
      omega

/-- After both initialisations the first four windows show the P1 tables, the fifth shows the P4
table, and all others are free. -/
theorem bootWindows_eq_ok {p1Frame p4Frame : PhysFrame} {page : Page} {vc : VCache}
    (h : bootWindows p1Frame p4Frame = .ok (page, vc)) :
    page = slotPage 0 4 ∧ ∃ tables : List PhysFrame, vc = bootCache (tables ++ [p4Frame]) ∧
      tables.length = 4 ∧ ∀ k f, tables[k]? = some f → f.num = p1Frame.num + k := by
  simp only [bootWindows, except_bind_eq_ok] at h
  obtain ⟨vc₁, hinit, h⟩ := h
  rw [← bootCache_nil] at hinit
  obtain ⟨tables, rfl, hlen, htables⟩ := @initWindows_eq_ok [] _ _ _ (by simp) hinit
  rw [List.nil_append, map_bootCache (by omega)] at h
  simp only [Except.ok.injEq, exists_eq_left', unwrap_some, Prod.mk.injEq] at h
  obtain ⟨rfl, rfl⟩ := h
  refine ⟨?_, tables, rfl, hlen, fun k f hk => by simpa using htables k f hk⟩
  simp [hlen]

theorem exists_initWindows {p1Frame : PhysFrame} {n : ℕ} (hlen : frames.length + n ≤ 512)
    (hspace : p1Frame.num + (frames.length + n) ≤ 2 ^ 40) :
    ∃ vc, initWindows p1Frame n frames.length (bootCache frames) = .ok vc := by
  induction n generalizing frames with
  | zero => exact ⟨_, rfl⟩
  | succ n ih =>
    have hadd : p1Frame.add frames.length = .ok ⟨p1Frame.num + frames.length, by omega⟩ :=
      PhysFrame.add_eq_ok.mpr rfl
    have horder : (slotPage 0 ⟨frames.length, by omega⟩).num = kvmspace.num + frames.length := by
      simp [slotPage]
    simp only [initWindows, hadd, except_ok_bind, map_bootCache (show frames.length < 512 by omega),
      unwrap_some, ensure_of horder]
    obtain ⟨vc, h⟩ := @ih (frames ++ [⟨p1Frame.num + frames.length, by omega⟩])
      (by simp only [List.length_append, List.length_singleton]; omega)
      (by simp only [List.length_append, List.length_singleton]; omega)
    exact ⟨vc, by simpa using h⟩

/-- The initialisations succeed: the pages come in the order that `vcache::init` relies on. -/
theorem exists_bootWindows {p1Frame : PhysFrame} (hspace : p1Frame.num + 4 ≤ 2 ^ 40)
    (p4Frame : PhysFrame) : ∃ page vc, bootWindows p1Frame p4Frame = .ok (page, vc) := by
  obtain ⟨vc, hinit⟩ : ∃ vc, initWindows p1Frame 4 0 (bootCache []) = .ok vc :=
    @exists_initWindows [] p1Frame 4 (by simp) (by simpa using hspace)
  obtain ⟨tables, rfl, hlen, -⟩ := @initWindows_eq_ok [] _ _ _ (by simp) hinit
  rw [bootCache_nil] at hinit
  rw [bootWindows, hinit, except_ok_bind, map_bootCache (by simp [hlen])]
  exact ⟨_, _, rfl⟩

theorem held_bootCache (i : Fin 4) (j : Fin 512) :
    (bootCache frames).Held i j ↔ i.val = 0 ∧ j.val < frames.length := by
  rw [VCache.Held, present_bootCache, decide_eq_true_eq]
  exact and_iff_left rfl

theorem counted_bootCache (hlen : frames.length ≤ 512) : (bootCache frames).Counted := by
  induction frames using List.reverseRecOn with
  | nil =>
    rw [bootCache_nil]
    exact VCache.counted_initial
  | append_singleton frames f ih =>
    rw [List.length_append, List.length_singleton] at hlen
    have hroom : (bootCache frames).unheld.Nonempty := by
      refine ⟨⟨frames.length, by omega⟩, VCache.mem_unheld.mpr ?_⟩
      simp [held_bootCache]
    obtain ⟨i, j, vc, hmap, hcounted, -⟩ := VCache.map_progress (ih (by omega)) hroom f
    rw [map_bootCache (by omega), Except.ok.injEq, Prod.mk.injEq] at hmap
    rwa [hmap.2]

end Boot

/-! ## Sessions -/

/-- The cache, and the two temporary windows of the session that is going on. -/
structure Session where
  cache : VCache
  tmp : Option (Window × Window)

/-- The calls of a session. -/
inductive Session.Event where
  | take
  | remap (s : Window) (frame : PhysFrame)
  | release

/-- Two windows are taken at once, pointed at frames any number of times, and released together. -/
inductive Session.Step : Session → Session.Event → Session → Prop where
  | take {vc vc' : VCache} {s₀ s₁ : Window} :
      vc.mapMany [nullFrame, nullFrame] [] = .ok (some [s₀.page, s₁.page], vc') →
      Step ⟨vc, none⟩ .take ⟨vc', some (s₀, s₁)⟩
  | remap {vc vc' : VCache} {s₀ s₁ s : Window} {frame : PhysFrame} :
      s = s₀ ∨ s = s₁ → vc.remap s.page frame = .ok (some vc') →
      Step ⟨vc, some (s₀, s₁)⟩ (.remap s frame) ⟨vc', some (s₀, s₁)⟩
  | release {vc vc' : VCache} {s₀ s₁ : Window} :
      vc.unmapMany [s₀.page, s₁.page] = .ok vc' →
      Step ⟨vc, some (s₀, s₁)⟩ .release ⟨vc', none⟩

/-- One of the first five windows: those of the P1 tables and of the P4 table. -/
def Reserved (s : Window) : Prop := s.1.val = 0 ∧ s.2.val < 5

/-- The window is in use by the session. -/
def Session.Uses (st : Session) (s : Window) : Prop :=
  ∃ s₀ s₁, st.tmp = some (s₀, s₁) ∧ (s = s₀ ∨ s = s₁)

/-- The invariant of sessions that started with the cache `base`. -/
structure Session.Good (base : VCache) (st : Session) : Prop where
  counted : st.cache.Counted
  held : ∀ s : Window, st.cache.Held s.1 s.2 ↔ Reserved s ∨ st.Uses s
  kept : ∀ s : Window, Reserved s → st.cache.p1 s.1 s.2 = base.p1 s.1 s.2
  apart : ∀ s₀ s₁, st.tmp = some (s₀, s₁) → s₀ ≠ s₁ ∧ ¬ Reserved s₀ ∧ ¬ Reserved s₁

section Sessions

variable {base vc vc' : VCache} {s₀ s₁ : Window}

theorem Session.not_uses_none (s : Window) : ¬ (⟨vc, none⟩ : Session).Uses s := by
  rintro ⟨s₀, s₁, h, -⟩
  cases h

theorem Session.uses_some (s : Window) :
    (⟨vc, some (s₀, s₁)⟩ : Session).Uses s ↔ s = s₀ ∨ s = s₁ := by
  constructor
  · rintro ⟨t₀, t₁, h, hs⟩
    cases h
    exact hs
  · exact fun hs => ⟨s₀, s₁, rfl, hs⟩

theorem Session.good_boot {frames : List PhysFrame} (hlen : frames.length = 5) :
    Session.Good (bootCache frames) ⟨bootCache frames, none⟩ where
  counted := counted_bootCache (by omega)
  held s := by
    rw [held_bootCache, hlen]
    simp [Reserved, Session.not_uses_none]
  kept _ _ := rfl
  apart _ _ h := by cases h

/-- Between two sessions most windows of the first table are free or lazy. -/
theorem Session.Good.room (h : Session.Good base ⟨vc, none⟩) : 2 ≤ vc.unheld.card := by
  have hsub : ({5, 6} : Finset (Fin 512)) ⊆ vc.unheld := by
    intro j hj
    rw [VCache.mem_unheld]
    intro hheld
    rcases (h.held (0, j)).mp hheld with hres | huses
    · obtain ⟨-, hlt⟩ := hres
      rcases Finset.mem_insert.mp hj with rfl | hj
      · revert hlt
        decide
      · rw [Finset.mem_singleton.mp hj] at hlt
        revert hlt
        decide
    · exact Session.not_uses_none _ huses
  exact Finset.card_le_card hsub

/-- A session can always be started, and it starts with two windows of its own. -/
theorem Session.Good.take (h : Session.Good base ⟨vc, none⟩) :
    ∃ (s₀ s₁ : Window) (vc' : VCache),
      vc.mapMany [nullFrame, nullFrame] [] = .ok (some [s₀.page, s₁.page], vc') ∧
      Session.Good base ⟨vc', some (s₀, s₁)⟩ := by
  obtain ⟨s₀, s₁, vc', hmany, hcounted, hborrow⟩ :=
    VCache.mapMany_progress h.counted h.room nullFrame nullFrame
  have hres : ∀ s : Window, vc.Held s.1 s.2 ↔ Reserved s := fun s =>
    (h.held s).trans (or_iff_left (Session.not_uses_none s))
  have hne₀ : ¬ Reserved s₀ := fun hr => hborrow.before₀ ((hres s₀).mpr hr)
  have hne₁ : ¬ Reserved s₁ := fun hr => hborrow.before₁ ((hres s₁).mpr hr)
  -- both windows were free or lazy before, and all others stay what they are
  refine ⟨s₀, s₁, vc', hmany, hcounted, fun s => ?_, fun s hr => ?_, ?_⟩
  · rw [Session.uses_some]
    by_cases hs₀ : s = s₀
    · subst hs₀
      simp [hborrow.after₀]
    · by_cases hs₁ : s = s₁
      · subst hs₁
        simp [hborrow.after₁]
      · rw [hborrow.other s hs₀ hs₁, hres]
        simp [hs₀, hs₁]
  · -- a held window keeps its entry when another one is mapped
    obtain ⟨vc₁, ⟨i, j, hpage₀, hmap₀⟩, i', j', hpage₁, hmap₁⟩ := VCache.mapMany_two hmany
    have hi : s₀ = (i, j) := Window.page_injective hpage₀
    have hi' : s₁ = (i', j') := Window.page_injective hpage₁
    obtain ⟨hheld, hsame⟩ := hmap₀.keeps s.1 s.2
      (fun hs => hne₀ (by rw [hi, ← hs.1, ← hs.2]; exact hr)) ((hres s).mpr hr)
    obtain ⟨-, hsame'⟩ := hmap₁.keeps s.1 s.2
      (fun hs => hne₁ (by rw [hi', ← hs.1, ← hs.2]; exact hr)) hheld
    exact (hsame'.trans hsame).trans (h.kept s hr)
  · intro t₀ t₁ htmp
    cases htmp
    exact ⟨hborrow.ne, hne₀, hne₁⟩

/-- The windows of a session can always be pointed at another frame. -/
theorem Session.Good.remap (h : Session.Good base ⟨vc, some (s₀, s₁)⟩) {s : Window}
    (hs : s = s₀ ∨ s = s₁) (frame : PhysFrame) :
    ∃ vc', vc.remap s.page frame = .ok (some vc') ∧
      Session.Good base ⟨vc', some (s₀, s₁)⟩ := by
  have hnot : ¬ Reserved s := by
    obtain ⟨-, hne₀, hne₁⟩ := h.apart s₀ s₁ rfl
    rcases hs with rfl | rfl
    · exact hne₀
    · exact hne₁
  have hheld : vc.Held s.1 s.2 := (h.held s).mpr (.inr ((Session.uses_some s).mpr hs))
  refine ⟨_, VCache.remap_slotPage vc s.1 s.2 frame, ?_⟩
  -- a remapped entry stays present, so that no counter is touched
  have hpresent : ∀ i j, ((vc.setSlot s (VCache.remapEntry (vc.p1 s.1 s.2) frame)).p1 i j).present =
      (vc.p1 i j).present := by
    intro i j
    simp only [VCache.setSlot, Store.set_apply]
    split_ifs with hij
    · rw [VCache.present_remapEntry, hij.1, hij.2, hheld.1]
    · rfl
  refine ⟨h.counted.of_present rfl hpresent, fun t => ?_, fun t hr => ?_, h.apart⟩
  · refine Iff.trans (and_congr_left fun _ => ?_) (h.held t)
    exact iff_of_eq (congrArg (· = true) (hpresent t.1 t.2))
  · simp only [VCache.setSlot]
    rw [Store.set_apply, if_neg fun ht => hnot (by rwa [← Prod.ext ht.1 ht.2]), h.kept t hr]

/-- A session can always be ended. -/
theorem Session.Good.release (h : Session.Good base ⟨vc, some (s₀, s₁)⟩) :
    ∃ vc', vc.unmapMany [s₀.page, s₁.page] = .ok vc' ∧ Session.Good base ⟨vc', none⟩ := by
  obtain ⟨hne, hne₀, hne₁⟩ := h.apart s₀ s₁ rfl
  have huses : ∀ s, s = s₀ ∨ s = s₁ → vc.Held s.1 s.2 := fun s hs =>
    (h.held s).mpr (.inr ((Session.uses_some s).mpr hs))
  obtain ⟨vc', hunmap, hcounted, hborrow⟩ :=
    VCache.unmapMany_progress h.counted hne (huses s₀ (.inl rfl)) (huses s₁ (.inr rfl))
  refine ⟨vc', hunmap, hcounted, fun s => ?_, fun s hr => ?_, fun _ _ htmp => by cases htmp⟩
  · rw [or_iff_left (Session.not_uses_none s)]
    by_cases hs₀ : s = s₀
    · subst hs₀
      simp [hborrow.before₀, hne₀]
    · by_cases hs₁ : s = s₁
      · subst hs₁
        simp [hborrow.before₁, hne₁]
      · rw [← hborrow.other s hs₀ hs₁, h.held, Session.uses_some]
        simp [hs₀, hs₁]
  · rw [← h.kept s hr]
    simp only [VCache.unmapMany, except_bind_eq_ok, Except.ok.injEq] at hunmap
    obtain ⟨vc₁, hunmap₀, vc₂, hunmap₁, rfl⟩ := hunmap
    rw [(VCache.unmap_spec hunmap₁).1, (VCache.unmap_spec hunmap₀).1]

/-- Each call of a session keeps the invariant. The three lemmas above say that the call returns;
since the functions are deterministic, its result is the one they speak of. -/
theorem Session.Step.good {st st' : Session} {e : Session.Event} (hstep : Session.Step st e st')
    (h : st.Good base) : st'.Good base := by
  cases hstep with
  | take hmany =>
    obtain ⟨t₀, t₁, vc', hmany', hgood⟩ := h.take
    obtain ⟨rfl, rfl, rfl⟩ := VCache.mapMany_inj hmany hmany'
    exact hgood
  | remap hs hremap =>
    obtain ⟨vc', hremap', hgood⟩ := h.remap hs _
    obtain rfl := Option.some.inj (Except.ok.inj (hremap.symm.trans hremap'))
    exact hgood
  | release hunmap =>
    obtain ⟨vc', hunmap', hgood⟩ := h.release
    obtain rfl := Except.ok.inj (hunmap.symm.trans hunmap')
    exact hgood

theorem Session.Good.run {st st' : Session} {es : List Session.Event} (h : st.Good base)
    (hrun : Run Session.Step st es st') : st'.Good base :=
  hrun.preserves h fun _ _ _ hst hstep => hstep.good hst

end Sessions

/-! ## The mapper holds sessions -/

section Refinement

variable {vm vm' : Vm} {M F F' : Set PhysFrame} {s₀ s₁ : Window} {page : Page} {phys : PhysFrame}
  {flags : PageTableFlags}

theorem Vm.Inv.vcache_setWindow (hinv : vm.Inv) (s : Window) (w : PageTableEntry) :
    (vm.setWindow s w).vcache = vm.vcache.setSlot s w := by
  simp only [Vm.vcache, VCache.setSlot, Vm.setWindow, Vm.setEntry]
  congr 1
  funext i j
  rw [Store.set_apply, Store.set_apply]
  simp only [hinv.p1_injective.eq_iff]

/-- Outside the P1 tables of the cache nothing matters to it. -/
theorem vcache_eq_of_mem (hp1 : vm'.p1 = vm.p1) (hstate : vm'.vcacheState = vm.vcacheState)
    (hmem : ∀ k, vm'.mem (vm.p1 k) = vm.mem (vm.p1 k)) : vm'.vcache = vm.vcache := by
  simp only [Vm.vcache, hp1, hstate, hmem]

/-- A change of the mapper is a call to the cache, or none at all. -/
theorem Change.Step.session {x x' : VmFree} {c : Change} (h : Change.Step s₀ s₁ x c x')
    (hx : Working s₀ s₁ x) :
    ∃ es, Run Session.Step ⟨x.1.vcache, some (s₀, s₁)⟩ es ⟨x'.1.vcache, some (s₀, s₁)⟩ := by
  have hinv := hx.inv
  -- only pointing a window somewhere is a call to the cache
  cases h with
  | @repoint vm F s g hs =>
    refine ⟨[.remap s g], .single (.remap hs ?_)⟩
    rw [Window.page, VCache.remap_slotPage, hinv.vcache_setWindow]
    rfl
  | @link vm F page p f g i hwalk hpath hunused hg =>
    -- the new table and its parent are no P1 tables of the cache
    have hsame : (vm.linkTable f i (.ofFrame g (tableFlags page)) g).vcache = vm.vcache := by
      refine vcache_eq_of_mem rfl rfl fun k => ?_
      have hne : vm.p1 k ≠ g := fun heq => Set.disjoint_left.mp hx.fresh hg
        (mem_tables_of_walk (heq ▸ hinv.wired k) (by simp [Vm.areaPath]))
      have hne' := hinv.p1_ne hwalk (length_lt_of_prefix_path hpath) k
      funext j
      exact (link_apply_of_ne hne j).trans (if_neg fun h => hne' h.1)
    rw [hsame]
    exact ⟨[], .nil _⟩
  | @leaf vm F page t frame flags hpage hwalk =>
    have hsame : (vm.setEntry t page.p1Index (.ofFrame frame flags)).vcache = vm.vcache :=
      vcache_eq_of_mem rfl rfl fun k => Store.set_of_ne _ _ _ (hinv.p1_ne_leaf hpage hwalk k).symm
    rw [hsame]
    exact ⟨[], .nil _⟩

theorem Working.sessions {x x' : VmFree} {cs : List Change} (hx : Working s₀ s₁ x)
    (h : Run (Change.Step s₀ s₁) x cs x') :
    ∃ es, Run Session.Step ⟨x.1.vcache, some (s₀, s₁)⟩ es ⟨x'.1.vcache, some (s₀, s₁)⟩ := by
  induction h with
  | nil => exact ⟨[], .nil _⟩
  | snoc hrun hlast ih =>
    obtain ⟨es, hes⟩ := ih
    obtain ⟨es', hes'⟩ := hlast.session (hx.run hrun)
    exact ⟨es ++ es', hes.append hes'⟩

/-- Inside a call the cache is in the middle of a session. -/
theorem mapPages_sessions (hinv : vm.Inv) (hfresh : Disjoint F vm.tables) (hpage : ¬ InArea page)
    {vc : VCache} {n : ℕ}
    (hmany : vm.vcache.mapMany [nullFrame, nullFrame] [] = .ok (some [s₀.page, s₁.page], vc))
    (h : Returns M (mapPages page phys s₀.page s₁.page n 0 flags (vm.withVCache vc)) F vm' F') :
    ∃ es, Run Session.Step ⟨vm.vcache, none⟩ es ⟨vm'.vcache, some (s₀, s₁)⟩ := by
  have hx := working_of_mapMany (F := F) hinv hfresh hmany
  obtain ⟨cs, hcs, -⟩ := mapPages_changes hx (not_inArea_add_zero hpage) h
  obtain ⟨es, hes⟩ := hx.sessions hcs
  rw [Vm.vcache_withVCache hinv.p1_injective] at hes
  exact ⟨_, (Run.single (.take hmany)).append hes⟩

/-- A call of the mapper is a session, or it does not touch the cache. In a session two windows are
mapped, pointed elsewhere any number of times, and given up again. -/
theorem map_sessions {size : ℕ} {r : Except KernelMapError Unit} (hinv : vm.Inv)
    (hfresh : Disjoint F vm.tables)
    (h : Returns M (KernelMapper.map vm page phys size flags) F (r, vm') F') :
    ∃ es, Run Session.Step ⟨vm.vcache, none⟩ es ⟨vm'.vcache, none⟩ := by
  rcases map_cases h with ⟨-, -, rfl, -⟩ | ⟨-, -, hpage, s₀, s₁, vc, vm₁, vc', hmany, hloop,
    hunmap, rfl⟩
  · exact ⟨[], .nil _⟩
  · obtain ⟨es, hes⟩ := mapPages_sessions hinv hfresh hpage hmany hloop
    have hx := working_of_mapMany (F := F) hinv hfresh hmany
    obtain ⟨cs, hcs, -⟩ := mapPages_changes hx (not_inArea_add_zero hpage) hloop
    have hx₁ := hx.run hcs
    rw [Vm.vcache_withVCache hx₁.inv.p1_injective]
    exact ⟨_, hes.snoc (.release hunmap)⟩

end Refinement

/-! ## Runs -/

/-- The first five windows are held, with the entries that they have in `start`. -/
def VCache.KeepsReserved (vc : VCache) (start : Vm) : Prop :=
  ∀ s : Window, Reserved s → vc.Held s.1 s.2 ∧ vc.p1 s.1 s.2 = start.entry s

theorem Session.Good.keepsReserved {start : Vm} {st : Session} (h : st.Good start.vcache) :
    st.cache.KeepsReserved start :=
  fun s hr => ⟨(h.held s).mpr (.inl hr), h.kept s hr⟩

/-- The memory subsystem only ever holds sessions with the cache. -/
theorem Machine.sessions_of_run {vm : Vm} {pmm : PhysicalFrameAllocator} {m : Machine}
    {calls : List MemCall} (hsane : Machine.Sane ⟨vm, pmm, []⟩)
    (hrun : Run Machine.Step ⟨vm, pmm, []⟩ calls m) :
    m.Sane ∧ ∃ es, Run Session.Step ⟨vm.vcache, none⟩ es ⟨m.vm.vcache, none⟩ := by
  refine hrun.preserves (I := fun m => m.Sane ∧
    ∃ es, Run Session.Step ⟨vm.vcache, none⟩ es ⟨m.vm.vcache, none⟩) ⟨hsane, [], .nil _⟩ ?_
  rintro m call m' ⟨h, es, hes⟩ hstep
  refine ⟨hstep.sane h, ?_⟩
  cases hstep with
  | palloc => exact ⟨es, hes⟩
  | refused => exact ⟨es, hes⟩
  | pfree => exact ⟨es, hes⟩
  | map hcall =>
    obtain ⟨es', hes'⟩ := map_sessions h.inv h.fresh (h.map_returns hcall).1
    exact ⟨es ++ es', hes.append hes'⟩

/-- **The mapper never runs out of windows.**  Start with the cache that `vcache::init` and
`mapper::init` leave.  However many calls were made, the next one finds two windows, distinct and
apart from the first five.  It can give them up after any number of iterations, and the first five
windows are held with their entries all the time. -/
theorem mapper_finds_windows {p1Frame p4Frame : PhysFrame} {p4page : Page} {vm : Vm}
    {pmm : PhysicalFrameAllocator} {m : Machine} {calls : List MemCall}
    (hboot : bootWindows p1Frame p4Frame = .ok (p4page, vm.vcache)) (hinv : vm.Inv)
    (hsound : pmm.Sound) (hfresh : Disjoint pmm.free vm.tables)
    (hrun : Run Machine.Step ⟨vm, pmm, []⟩ calls m) :
    m.vm.vcache.KeepsReserved vm ∧
      ∃ (s₀ s₁ : Window) (vc : VCache),
        m.vm.vcache.mapMany [nullFrame, nullFrame] [] = .ok (some [s₀.page, s₁.page], vc) ∧
        s₀ ≠ s₁ ∧ ¬ Reserved s₀ ∧ ¬ Reserved s₁ ∧ vc.KeepsReserved vm ∧
        ∀ page phys n flags vm' pmm', ¬ InArea page →
          (mapPages page phys s₀.page s₁.page n 0 flags (m.vm.withVCache vc)).run
            PhysicalFrameAllocator.pool m.pmm = .ok (vm', pmm') →
          vm'.vcache.KeepsReserved vm ∧
            ∃ vc', vm'.vcache.unmapMany [s₀.page, s₁.page] = .ok vc' ∧ vc'.KeepsReserved vm := by
  -- the invariant after boot, and from there along the run
  have hstart : Session.Good vm.vcache ⟨vm.vcache, none⟩ := by
    obtain ⟨-, tables, hvc, hlen, -⟩ := bootWindows_eq_ok hboot
    rw [hvc]
    exact Session.good_boot (by simp [hlen])
  obtain ⟨h, es, hes⟩ := Machine.sessions_of_run (.start hinv hsound hfresh) hrun
  have hgood := hstart.run hes
  obtain ⟨s₀, s₁, vc, hmany, hopen⟩ := hgood.take
  obtain ⟨hne, hne₀, hne₁⟩ := hopen.apart s₀ s₁ rfl
  refine ⟨hgood.keepsReserved, s₀, s₁, vc, hmany, hne, hne₀, hne₁, hopen.keepsReserved,
    fun page phys n flags vm' pmm' hpage hloop => ?_⟩
  -- also in the middle of a call the cache is in a session, which can be ended
  obtain ⟨hret, -, -⟩ := run_returns PhysicalFrameAllocator.freeSet h.sound hloop
  obtain ⟨es', hes'⟩ := mapPages_sessions h.inv h.fresh hpage hmany hret
  have hinside := hgood.run hes'
  obtain ⟨vc', hunmap, hclosed⟩ := hinside.release
  exact ⟨hinside.keepsReserved, vc', hunmap, hclosed.keepsReserved⟩

/-- The frames of the P1 tables of a fresh address space, and that of its root. -/
def freshTables : List PhysFrame := List.ofFn freshVm.p1

/-- The cache of a fresh address space is the one after boot. -/
theorem freshVm_vcache : freshVm.vcache = bootCache (freshTables ++ [freshVm.cr3]) := by
  have hp1 : freshVm.vcache.p1 = (bootCache (freshTables ++ [freshVm.cr3])).p1 := by
    funext i j
    have h₁ : ¬ (4 + i.val = 1) := by omega
    have h₂ : ¬ (4 + i.val = 2) := by omega
    have h₃ : ¬ (4 + i.val = 3) := by omega
    have hi : 4 + i.val = 4 ↔ i = 0 := by rw [Fin.ext_iff]; simp
    simp only [Vm.vcache, bootCache, freshVm, h₁, h₂, h₃, hi, false_and, if_false, freshTables]
    by_cases hzero : i = 0
    · -- the entry by its index, up to the last of the five
      rcases j with ⟨_ | _ | _ | _ | _ | k, hk⟩ <;> simp [hzero]
    · simp [hzero]
  have hstate : freshVm.vcache.state = (bootCache (freshTables ++ [freshVm.cr3])).state := by
    have hcount : (fun i : Fin 4 => if i.val = 0 then 507 else 512) =
        fun i : Fin 4 => if i.val = 0 then 512 - (freshTables ++ [freshVm.cr3]).length
          else 512 := by
      funext i
      revert i
      decide
    exact congrArg (VCacheState.mk · _ _) hcount
  exact congrArg₂ VCache.mk hp1 hstate

theorem bootWindows_fresh :
    bootWindows (freshVm.p1 0) freshVm.cr3 = .ok (slotPage 0 4, freshVm.vcache) := by
  obtain ⟨page, vc, h⟩ := exists_bootWindows (show (freshVm.p1 0).num + 4 ≤ 2 ^ 40 by decide)
    freshVm.cr3
  obtain ⟨rfl, tables, rfl, hlen, htables⟩ := bootWindows_eq_ok h
  have htables : tables = freshTables := by
    refine List.ext_getElem (by rw [hlen]; rfl) fun k hk hk' => PhysFrame.ext ?_
    rw [htables k _ (List.getElem?_eq_getElem hk)]
    match k with
    | 0 | 1 | 2 | 3 => rfl
    | k + 4 => omega
  rw [h, htables, freshVm_vcache]

/-- A call of the mapper in a fresh address space, and the windows of the next one. -/
theorem mapper_finds_windows_fresh :
    ∃ m, Run Machine.Step ⟨freshVm, freshPmm, []⟩ [.map lowPage lowFrame 8000 .WRITABLE] m ∧
      ∃ (s₀ s₁ : Window) (vc : VCache),
        m.vm.vcache.mapMany [nullFrame, nullFrame] [] = .ok (some [s₀.page, s₁.page], vc) ∧
        s₀ ≠ s₁ ∧ ¬ Reserved s₀ ∧ ¬ Reserved s₁ := by
  obtain ⟨m, hrun⟩ := exists_fresh_call .WRITABLE (by decide)
  obtain ⟨-, s₀, s₁, vc, hmany, hne, hne₀, hne₁, -⟩ := mapper_finds_windows bootWindows_fresh
    able_fresh.ready.inv able_fresh.sound able_fresh.fresh hrun
  exact ⟨m, hrun, s₀, s₁, vc, hmany, hne, hne₀, hne₁⟩

end HeliumOS.Mem.Virt
