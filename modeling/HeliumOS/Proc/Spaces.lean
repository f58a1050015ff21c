import HeliumOS.Proc.Progress

/-!
# Address Spaces

All tasks share one set of page tables.  `MemoryMap::apply` adds the mappings of a task when its
core resumes it, unless the map that the core applied last has the same identifier; nothing removes
mappings, and `MemoryMap::new` gives every map the same identifier.

- `Spaces` is what matters of the state: page tables, free frames, the maps of the tasks, and the
  first task that each core resumed.  `Moves` says how it can change.
- `Sane` holds along every run: the frames of the live tasks are taken and belong to one task each.
- `Installed`, `FromFirst` and `FirstAlive` tell the page tables from the first tasks of the cores:
  they are the only ones that are ever installed.
-/

namespace HeliumOS.Proc

open HeliumOS.Lib HeliumOS.Lib.AllocProg HeliumOS.Mem HeliumOS.Mem.Virt

/-! ## Installing a map -/

section Apply

variable {M F F' : Set PhysFrame} {vm vm' : Vm}

theorem leafFlags_of_isUser {q : Page} (hq : q.IsUser) (flags : PageTableFlags) :
    leafFlags q.num flags = flags ||| .PRESENT := by
  have hlt := (Page.isUser_iff_lt_kvmspace q).mp hq
  rw [leafFlags, if_neg (Nat.not_lt.mpr hlt.le)]

/-- Installing mappings: each page ends up with the last mapping that names it. -/
theorem applyMappings_spec {ms : List MemoryMapping} (hinv : vm.Inv) (hfresh : Disjoint F vm.tables)
    (hwf : ∀ m ∈ ms, m.Wf) (h : Returns M (applyMappings ms vm) F vm' F') :
    Evolves vm vm' F F' {q | ∃ m ∈ ms, m.vadr = q} ∧
      ∀ q m, (ms.reverse.find? fun m => m.vadr = q) = some m →
        vm'.translate q = some ⟨m.padr, m.flags ||| .PRESENT⟩ := by
  induction ms generalizing vm F with
  | nil =>
    obtain ⟨rfl, rfl⟩ := returns_pure.mp h
    exact ⟨.refl hinv _, by simp⟩
  | cons x ms ih =>
    have hx := hwf x List.mem_cons_self
    have hrest : ∀ m ∈ ms, m.Wf := fun m hm => hwf m (List.mem_cons_of_mem _ hm)
    simp only [applyMappings, returns_bind, returns_lift, checkedMul_eq_ok, hx.single] at h
    obtain ⟨_, _, ⟨⟨-, rfl⟩, rfl⟩, vm₁, F₁, hmap, h⟩ := h
    rw [Nat.one_mul] at hmap
    obtain ⟨hev, hout, htrans⟩ := vmapExpect_evolves hinv hfresh hmap
    obtain ⟨hev', hlast⟩ := ih hev.inv (hev.fresh hfresh) hrest h
    refine ⟨(hev.trans hev').mono ?_, fun q m hm => ?_⟩
    · rintro q (rfl | ⟨m, hm, rfl⟩)
      · exact ⟨x, List.mem_cons_self, rfl⟩
      · exact ⟨m, List.mem_cons_of_mem _ hm, rfl⟩
    · rw [List.reverse_cons, List.find?_append, Option.or_eq_some_iff] at hm
      rcases hm with hm | ⟨hnone, hm⟩
      · exact hlast q m hm
      · -- no later mapping names the page, so what `x` has set stays
        obtain ⟨rfl, hq⟩ : x = m ∧ x.vadr = q := by simpa [List.find?_singleton, and_comm] using hm
        subst hq
        have hnot : x.vadr ∉ {q | ∃ m ∈ ms, m.vadr = q} := by
          rintro ⟨m, hm, heq⟩
          have := List.find?_eq_none.mp hnone m (List.mem_reverse.mpr hm)
          simp [heq] at this
        rw [hev'.translate _ hout hnot, htrans, leafFlags_of_isUser hx.user]

end Apply

/-! ## Moves -/

/-- Page tables, frames and maps. -/
structure Spaces where
  vm : Vm
  free : Set PhysFrame
  tasks : List TaskRef
  map : TaskRef → MemoryMap
  next : TaskRef
  active : ℕ → Option ℕ
  first : ℕ → Option TaskRef

/-- How a step can change them. -/
inductive Move where
  | load
  | fail
  | exit (r : TaskRef)
  | apply (core : ℕ) (r : TaskRef)

/-- The frames that a map gives back when it is dropped. -/
def MemoryMap.owned (map : MemoryMap) : Set PhysFrame :=
  {f | f ∈ (map.mappings.filter MemoryMapping.allocated).map MemoryMapping.padr}

/-- The moves: a task is loaded, a load fails, a task leaves, the map of a task is installed. -/
inductive Moves (M : Set PhysFrame) : Spaces → Move → Spaces → Prop where
  | load {s : Spaces} {vm : Vm} {F : Set PhysFrame} {map : MemoryMap} :
      Loading s.vm vm s.free F map →
      Moves M s .load { s with
        vm, free := F, tasks := s.tasks ++ [s.next], map := Function.update s.map s.next map,
        next := s.next + 1 }
  | fail {s : Spaces} {vm : Vm} {F : Set PhysFrame} :
      Evolves s.vm vm s.free F {q | ¬ q.IsUser} → Moves M s .fail { s with vm, free := F }
  | exit {s : Spaces} {r : TaskRef} :
      r ∈ s.tasks →
      Moves M s (.exit r) { s with
        free := s.free ∪ (s.map r).owned ∩ M, tasks := s.tasks.erase r }
  | apply {s : Spaces} {core : ℕ} {r : TaskRef} {vm : Vm} {F : Set PhysFrame} :
      r ∈ s.tasks → s.active core ≠ some (s.map r).id →
      Returns M (applyMappings (s.map r).mappings s.vm) s.free vm F →
      Moves M s (.apply core r) { s with
        vm, free := F, active := Function.update s.active core (some (s.map r).id),
        first := Function.update s.first core (some r) }

/-- The frames of the live tasks are taken, are no page tables, and belong to one task each. -/
structure Sane (s : Spaces) : Prop where
  inv : s.vm.Inv
  fresh : Disjoint s.free s.vm.tables
  nodup : s.tasks.Nodup
  old : ∀ r ∈ s.tasks, r < s.next
  first_old : ∀ c r, s.first c = some r → r < s.next
  id : ∀ r ∈ s.tasks, (s.map r).id = 0
  wf : ∀ r ∈ s.tasks, ∀ m ∈ (s.map r).mappings, m.Wf
  taken : ∀ r ∈ s.tasks, ∀ f ∈ (s.map r).frames, f ∉ s.free ∧ f ∉ s.vm.tables
  apart : ∀ r ∈ s.tasks, ∀ r' ∈ s.tasks, ∀ f ∈ (s.map r).frames, f ∈ (s.map r').frames → r = r'
  active : ∀ c, s.active c = (s.first c).map fun _ => 0

section Sane

variable {M F : Set PhysFrame} {s s' : Spaces} {move : Move} {vm : Vm} {r : TaskRef} {core : ℕ}

theorem MemoryMap.owned_subset {map : MemoryMap} {f : PhysFrame} (hf : f ∈ map.owned) :
    f ∈ map.frames := by
  obtain ⟨m, hm, rfl⟩ := List.mem_map.mp hf
  exact List.mem_map_of_mem (List.mem_of_mem_filter hm)

/-- Frames that are neither free nor page tables stay so while virtual memory evolves. -/
theorem taken_of_evolves {F₀ : Set PhysFrame} {vm₀ : Vm} {P : Set Page} {f : PhysFrame}
    (hev : Evolves vm₀ vm F₀ F P) (h : f ∉ F₀ ∧ f ∉ vm₀.tables) : f ∉ F ∧ f ∉ vm.tables := by
  refine ⟨fun hmem => h.1 (hev.free hmem), fun hmem => ?_⟩
  rcases hev.tables hmem with hold | ⟨hfree, -⟩
  · exact h.2 hold
  · exact h.1 hfree

theorem Sane.evolves {P : Set Page} (h : Sane s) (hev : Evolves s.vm vm s.free F P) :
    Sane { s with vm, free := F } :=
  { h with
    inv := hev.inv
    fresh := hev.fresh h.fresh
    taken := fun r hr f hf => taken_of_evolves hev (h.taken r hr f hf) }

/-- A core that installs a map has not installed one before. -/
theorem Sane.first_eq_none (h : Sane s) (hr : r ∈ s.tasks)
    (hactive : s.active core ≠ some (s.map r).id) : s.first core = none := by
  rw [h.active, h.id r hr] at hactive
  cases hfirst : s.first core with
  | none => rfl
  | some r' => simp [hfirst] at hactive

theorem Sane.load {map : MemoryMap} (h : Sane s) (hload : Loading s.vm vm s.free F map) :
    Sane { s with
      vm, free := F, tasks := s.tasks ++ [s.next], map := Function.update s.map s.next map,
      next := s.next + 1 } := by
  have hev := h.evolves hload.evolves
  have hold : ∀ r ∈ s.tasks, Function.update s.map s.next map r = s.map r := fun r hr =>
    Function.update_of_ne (Nat.ne_of_lt (h.old r hr)) ..
  have hmem : ∀ r ∈ s.tasks ++ [s.next], r ∈ s.tasks ∨ r = s.next := by simp
  -- the frames of the new map were free, so that no other task has them
  have hnew : ∀ r ∈ s.tasks, ∀ f ∈ map.frames, f ∉ (s.map r).frames := fun r hr f hf hf' =>
    (h.taken r hr f hf').1 (hload.taken f hf).1
  refine ⟨hev.inv, hev.fresh, ?_, ?_, ?_, ?_, ?_, ?_, ?_, h.active⟩
  · refine h.nodup.append (List.nodup_singleton _) fun r hr hr' => ?_
    obtain rfl := List.mem_singleton.mp hr'
    exact absurd (h.old _ hr) (Nat.lt_irrefl _)
  · intro r hr
    rcases hmem r hr with hr | rfl
    · exact Nat.lt_succ_of_lt (h.old r hr)
    · exact Nat.lt_succ_self _
  · exact fun c r hr => Nat.lt_succ_of_lt (h.first_old c r hr)
  · intro r hr
    rcases hmem r hr with hr | rfl
    · simp only [hold r hr, h.id r hr]
    · simp only [Function.update_self, hload.id]
  · intro r hr m hm
    rcases hmem r hr with hr | rfl
    · exact h.wf r hr m (by simpa only [hold r hr] using hm)
    · exact hload.wf m (by simpa using hm)
  · intro r hr f hf
    rcases hmem r hr with hr | rfl
    · exact hev.taken r hr f (by simpa only [hold r hr] using hf)
    · exact (hload.taken f (by simpa using hf)).2
  · intro r hr r' hr' f hf hf'
    rcases hmem r hr with hr | rfl
    · rcases hmem r' hr' with hr' | rfl
      · simp only [hold r hr, hold r' hr'] at hf hf'
        exact h.apart r hr r' hr' f hf hf'
      · simp only [hold r hr, Function.update_self] at hf hf'
        exact absurd hf (hnew r hr f hf')
    · rcases hmem r' hr' with hr' | rfl
      · simp only [hold r' hr', Function.update_self] at hf hf'
        exact absurd hf' (hnew r' hr' f hf)
      · rfl

theorem Sane.exit (h : Sane s) (hr : r ∈ s.tasks) :
    Sane { s with free := s.free ∪ (s.map r).owned ∩ M, tasks := s.tasks.erase r } := by
  -- the frames that become free were those of the task, so that they are no tables
  have hmem : ∀ r' ∈ s.tasks.erase r, r' ≠ r ∧ r' ∈ s.tasks := fun r' hr' =>
    h.nodup.mem_erase_iff.mp hr'
  refine ⟨h.inv, ?_, h.nodup.erase r, ?_, h.first_old, ?_, ?_, ?_, ?_, h.active⟩
  · refine Set.disjoint_left.mpr ?_
    rintro f (hf | ⟨hf, -⟩)
    · exact Set.disjoint_left.mp h.fresh hf
    · exact (h.taken r hr f (MemoryMap.owned_subset hf)).2
  · exact fun r' hr' => h.old r' (hmem r' hr').2
  · exact fun r' hr' => h.id r' (hmem r' hr').2
  · exact fun r' hr' => h.wf r' (hmem r' hr').2
  · intro r' hr' f hf
    obtain ⟨hne, hr'⟩ := hmem r' hr'
    obtain ⟨hfree, htables⟩ := h.taken r' hr' f hf
    refine ⟨?_, htables⟩
    rintro (hf' | ⟨hf', -⟩)
    · exact hfree hf'
    · exact hne (h.apart r' hr' r hr f hf (MemoryMap.owned_subset hf'))
  · exact fun r₁ hr₁ r₂ hr₂ => h.apart r₁ (hmem r₁ hr₁).2 r₂ (hmem r₂ hr₂).2

theorem Moves.sane (h : Sane s) (hmove : Moves M s move s') : Sane s' := by
  cases hmove with
  | load hload => exact h.load hload
  | fail hev => exact h.evolves hev
  | exit hr => exact h.exit hr
  | @apply core r vm F hr hactive hret =>
    obtain ⟨hev, -⟩ := applyMappings_spec h.inv h.fresh (h.wf r hr) hret
    have h' := h.evolves hev
    refine { h' with first_old := fun c r' hc => ?_, active := fun c => ?_ }
    · by_cases hcore : c = core
      · subst hcore
        simp only [Function.update_self, Option.some.injEq] at hc
        exact hc ▸ h.old r hr
      · exact h.first_old c r' (by simpa [hcore] using hc)
    · by_cases hcore : c = core
      · subst hcore
        simp [h.id r hr]
      · simpa [hcore] using h.active c

theorem Moves.apply_inv (hmove : Moves M s (.apply core r) s') :
    r ∈ s.tasks ∧ s.active core ≠ some (s.map r).id := by
  cases hmove with
  | apply hr hactive _ => exact ⟨hr, hactive⟩

/-- The maps of tasks that exist do not change. -/
theorem Moves.map_eq (hmove : Moves M s move s') (hr : r < s.next) : s'.map r = s.map r := by
  cases hmove with
  | load => exact Function.update_of_ne (Nat.ne_of_lt hr) ..
  | fail => rfl
  | exit => rfl
  | apply => rfl

/-- Only installing a map changes how the user half is translated. -/
theorem Moves.translate_eq (hmove : Moves M s move s') (hne : ∀ core r, move ≠ .apply core r)
    {q : Page} (hq : q.IsUser) :
    s'.vm.translate q = s.vm.translate q ∧ s'.first = s.first := by
  cases hmove with
  | load hload =>
    exact ⟨hload.evolves.translate q (not_inArea_of_isUser hq) (not_not.mpr hq), rfl⟩
  | fail hev => exact ⟨hev.translate q (not_inArea_of_isUser hq) (not_not.mpr hq), rfl⟩
  | exit => exact ⟨rfl, rfl⟩
  | apply => exact absurd rfl (hne _ _)

end Sane

/-! ## What is installed -/

/-- Core `core` is the only one that has resumed a task, and the map of the first one that it
resumed is installed. -/
structure Installed (core : ℕ) (s : Spaces) : Prop where
  only : ∀ c, c ≠ core → s.first c = none
  user : ∀ r, s.first core = some r → ∀ m ∈ (s.map r).mappings, m.vadr.IsUser
  shows : ∀ r, s.first core = some r → ∀ q m, (s.map r).last q = some m →
    s.vm.translate q = some ⟨m.padr, m.flags ||| .PRESENT⟩

/-- Every leaf of the user half comes from a mapping of the first task of some core. -/
def FromFirst (s : Spaces) : Prop :=
  ∀ q t, q.IsUser → s.vm.translate q = some t →
    ∃ c r, s.first c = some r ∧ ∃ m ∈ (s.map r).mappings, m.vadr = q ∧ m.padr = t.frame

/-- The first tasks of the cores are still there. -/
def FirstAlive (s : Spaces) : Prop := ∀ c r, s.first c = some r → r ∈ s.tasks

section Installed

variable {M F : Set PhysFrame} {s s' : Spaces} {move : Move} {core : ℕ}

theorem Moves.installed (hsane : Sane s) (h : Installed core s) (hmove : Moves M s move s')
    (hcore : ∀ c r, move = .apply c r → c = core) : Installed core s' := by
  by_cases happly : ∃ c r, move = .apply c r
  · obtain ⟨c, r, rfl⟩ := happly
    obtain rfl := hcore c r rfl
    cases hmove with
    | apply hr hactive hret =>
      obtain ⟨-, hlast⟩ := applyMappings_spec hsane.inv hsane.fresh (hsane.wf r hr) hret
      refine ⟨fun c' hne => ?_, fun r' hr' m hm => ?_, fun r' hr' q m hm => ?_⟩
      · simpa [hne] using h.only c' hne
      · obtain rfl : r = r' := by simpa using hr'
        exact (hsane.wf r hr m hm).user
      · obtain rfl : r = r' := by simpa using hr'
        exact hlast q m hm
  · -- all other moves leave the user half alone
    simp only [not_exists] at happly
    have hfirst : s'.first = s.first :=
      (hmove.translate_eq happly (q := USERSTACK_TOP) (by decide)).2
    refine ⟨fun c hne => ?_, fun r hr => ?_, fun r hr q m hm => ?_⟩
    · rw [hfirst]
      exact h.only c hne
    · rw [hfirst] at hr
      rw [hmove.map_eq (hsane.first_old core r hr)]
      exact h.user r hr
    · rw [hfirst] at hr
      rw [hmove.map_eq (hsane.first_old core r hr)] at hm
      obtain ⟨hmem, rfl⟩ := MemoryMap.last_mem hm
      rw [(hmove.translate_eq happly (h.user r hr m hmem)).1]
      exact h.shows r hr _ m hm

theorem Moves.fromFirst (hsane : Sane s) (h : FromFirst s) (hmove : Moves M s move s') :
    FromFirst s' := by
  intro q t hq ht
  by_cases happly : ∃ c r, move = .apply c r
  · obtain ⟨c, r, rfl⟩ := happly
    cases hmove with
    | apply hr hactive hret =>
      obtain ⟨hev, hlast⟩ := applyMappings_spec hsane.inv hsane.fresh (hsane.wf r hr) hret
      by_cases hpage : ∃ m ∈ (s.map r).mappings, m.vadr = q
      · obtain ⟨m, hm, rfl⟩ := hpage
        obtain ⟨m', hm'⟩ := MemoryMap.last_eq_some hm
        obtain ⟨hmem, hvadr⟩ := MemoryMap.last_mem hm'
        refine ⟨c, r, by simp, m', hmem, hvadr, ?_⟩
        obtain rfl := Option.some.inj (ht.symm.trans (hlast _ m' hm'))
        rfl
      · rw [hev.translate q (not_inArea_of_isUser hq) hpage] at ht
        obtain ⟨c', r', hc', hmapping⟩ := h q t hq ht
        -- the core that installs had no first task, so it is not the one of this leaf
        have hne : c' ≠ c := by
          rintro rfl
          rw [hsane.first_eq_none hr hactive] at hc'
          cases hc'
        exact ⟨c', r', by simpa [hne] using hc', hmapping⟩
  · simp only [not_exists] at happly
    obtain ⟨htrans, hfirst⟩ := hmove.translate_eq happly hq
    rw [htrans] at ht
    obtain ⟨c, r, hc, hmapping⟩ := h q t hq ht
    refine ⟨c, r, hfirst ▸ hc, ?_⟩
    rwa [hmove.map_eq (hsane.first_old c r hc)]

theorem Moves.firstAlive (h : FirstAlive s) (hmove : Moves M s move s')
    (hexit : ∀ r, move = .exit r → ∀ c, s.first c ≠ some r) : FirstAlive s' := by
  intro c r hc
  cases hmove with
  | load => exact List.mem_append_left _ (h c r hc)
  | fail => exact h c r hc
  | @exit r' _ =>
    have hne : r ≠ r' := fun heq => hexit r' rfl c (heq ▸ hc)
    exact (List.mem_erase_of_ne hne).mpr (h c r hc)
  | @apply core r' _ _ hr =>
    by_cases hcore : c = core
    · subst hcore
      simp only [Function.update_self, Option.some.injEq] at hc
      exact hc ▸ hr
    · exact h c r (by simpa [hcore] using hc)

/-- Leaves of live tasks point to frames that are not free. -/
theorem Sane.not_free (h : Sane s) (hfrom : FromFirst s) (halive : FirstAlive s) {q : Page}
    {t : Translation} (hq : q.IsUser) (ht : s.vm.translate q = some t) : t.frame ∉ s.free := by
  obtain ⟨c, r, hc, m, hm, -, hpadr⟩ := hfrom q t hq ht
  rw [← hpadr]
  exact (h.taken r (halive c r hc) _ (List.mem_map_of_mem hm)).1

end Installed

end HeliumOS.Proc
