import HeliumOS.Proc.Loader

/-!
# What the Steps of the Scheduler Can Do

One inversion lemma for each function of `proc/task.rs` that changes the shared state: the cases in
which it returns, the state that it leaves, and the frames that it gives back.  Everything proved
about runs starts from these.
-/

namespace HeliumOS.Proc

open HeliumOS.Lib HeliumOS.Lib.AllocProg HeliumOS.Mem HeliumOS.Mem.Virt HeliumOS.Elf

variable {M F F' : Set PhysFrame} {sys sys' : System} {env : Env} {core : ℕ}

theorem procInfo_eq_ok {pinfo : ProcInfo} :
    sys.procInfo core = .ok pinfo ↔ sys.procs core = some pinfo := unwrap_eq_ok

/-! ## Dropping references -/

/-- The frames that go back when one reference to a task is dropped. -/
def released (sys : System) (r : TaskRef) : Set PhysFrame :=
  if (sys.arena r).strong - 1 = 0 then
    {f | f ∈ ((sys.task r).memoryMap.mappings.filter MemoryMapping.allocated).map
      MemoryMapping.padr}
  else ∅

theorem returns_arcDrop {r : TaskRef} :
    Returns M (arcDrop r sys) F sys' F' ↔
      sys' = sys.setStrong r ((sys.arena r).strong - 1) ∧ F' = F ∪ (released sys r ∩ M) := by
  by_cases hlast : (sys.arena r).strong - 1 = 0
  · simp only [arcDrop, released, hlast, if_true, returns_bind, dropMappings_eq, returns_pfreeAll,
      returns_pure]
    constructor
    · rintro ⟨-, F₁, rfl, rfl, rfl⟩
      exact ⟨rfl, rfl⟩
    · rintro ⟨rfl, rfl⟩
      exact ⟨(), _, rfl, rfl, rfl⟩
  · simp [arcDrop, released, hlast]

/-! ## Creating tasks -/

theorem newLocked_eq_ok {procstate : TaskProcState} {map : MemoryMap} {id : ℕ} :
    newLocked procstate map sys = .ok (id, sys') ↔
      sys.idCount + 1 < 2 ^ 64 ∧ id = sys.idCount + 1 ∧ sys' = sys.push procstate map := by
  simp only [newLocked, except_bind_eq_ok, checkedAdd_eq_ok, Except.ok.injEq, Prod.mk.injEq]
  constructor
  · rintro ⟨_, ⟨hlt, rfl⟩, rfl, rfl⟩
    exact ⟨hlt, rfl, rfl⟩
  · rintro ⟨hlt, rfl, rfl⟩
    exact ⟨_, ⟨hlt, rfl⟩, rfl, rfl⟩

/-- The scheduler sees of `exec` one new task, or nothing. -/
theorem exec_cases {elf : ElfFile} {res : ExecResult}
    (h : Returns M (exec core elf sys) F (res, sys') F') :
    ∃ vm, ((∀ id, res ≠ .success id) ∧ sys' = { sys with vm }) ∨
      ∃ procstate map, sys' = { sys with vm }.push procstate map := by
  simp only [exec, returns_bind] at h
  obtain ⟨⟨r, map, vm⟩, F₁, hload, h⟩ := h
  refine ⟨vm, ?_⟩
  cases r with
  | error e =>
    simp only [returns_bind, returns_pure, Prod.mk.injEq] at h
    obtain ⟨-, F₂, -, ⟨rfl, rfl⟩, -⟩ := h
    exact .inl ⟨(loadInvariant_ne_success core).load (by simp) hload _ rfl, rfl⟩
  | ok u =>
    simp only [returns_bind, returns_lift, returns_pure, Prod.mk.injEq, Prod.exists] at h
    obtain ⟨id, sys₁, F₂, ⟨hnew, -⟩, ⟨-, rfl⟩, -⟩ := h
    obtain ⟨-, -, rfl⟩ := newLocked_eq_ok.mp hnew
    exact .inr ⟨_, map, rfl⟩

/-- A task that exists is left alone by `exec`. -/
theorem task_exec {elf : ElfFile} {res : ExecResult} {r : TaskRef} (hr : r < sys.nextRef)
    (h : Returns M (exec core elf sys) F (res, sys') F') : sys'.task r = sys.task r := by
  obtain ⟨vm, ⟨-, rfl⟩ | ⟨procstate, map, rfl⟩⟩ := exec_cases h
  · rfl
  · exact System.push_task_of_ne _ _ _ (Nat.ne_of_lt hr)

/-- Frames and page tables after `exec`: a new task owns the frames of its map, and a failed
`exec` has given back every frame but those that became page tables. -/
theorem exec_spec {elf : ElfFile} {res : ExecResult} (hinv : sys.vm.Inv)
    (hfresh : Disjoint F sys.vm.tables) (h : Returns M (exec core elf sys) F (res, sys') F') :
    (∃ map vm id, res = .success id ∧
        sys' = { sys with vm }.push (.new elf.header.entrypoint) map ∧
        Loading sys.vm vm F F' map ∧
        ∀ q : Page, USERSTACK_TOP.num ≤ q.num → q.num < USERSTACK_TOP.num + 128 →
          ∃ m ∈ map.mappings, m.vadr = q) ∨
      ∃ vm, (∀ id, res ≠ .success id) ∧ sys' = { sys with vm } ∧
        Evolves sys.vm vm F F' {q | ¬ q.IsUser} := by
  simp only [exec, returns_bind] at h
  obtain ⟨⟨r, map, vm⟩, F₁, hload, h⟩ := h
  obtain ⟨hleaves, hstack⟩ := load_spec hinv hfresh hload
  cases r with
  | error e =>
    obtain ⟨he, F₂, hloading, hsub, hsup⟩ := hleaves
    simp only [returns_bind, returns_pure, Prod.mk.injEq, dropMappings_eq, returns_pfreeAll] at h
    obtain ⟨-, _, rfl, ⟨rfl, rfl⟩, rfl⟩ := h
    refine .inr ⟨vm, he, rfl, ?_⟩
    -- what has been given back, twice or not, are frames of the map
    have hback : ∀ f ∈ F₁ ∪ {f | f ∈ (map.mappings.filter MemoryMapping.allocated).map
        MemoryMapping.padr} ∩ M, f ∈ F₂ ∨ f ∈ map.frames := by
      rintro f (hf | ⟨hf, -⟩)
      · exact hsup hf
      · obtain ⟨m, hm, rfl⟩ := List.mem_map.mp hf
        exact .inr (List.mem_map_of_mem (List.mem_of_mem_filter hm))
    refine { hloading.evolves with free := fun f hf => ?_, tables := fun f hf => ?_ }
    · rcases hback f hf with hf | hf
      · exact hloading.evolves.free hf
      · exact (hloading.taken f hf).1
    · rcases hloading.evolves.tables hf with hold | ⟨hfree, hnot⟩
      · exact .inl hold
      · refine .inr ⟨hfree, fun hmem => ?_⟩
        rcases hback f hmem with hmem | hmem
        · exact hnot hmem
        · exact (hloading.taken f hmem).2.2 hf
  | ok u =>
    simp only [returns_bind, returns_lift, returns_pure, Prod.mk.injEq, Prod.exists] at h
    obtain ⟨id, sys₁, F₂, ⟨hnew, rfl⟩, ⟨rfl, rfl⟩, rfl⟩ := h
    obtain ⟨-, -, rfl⟩ := newLocked_eq_ok.mp hnew
    exact .inl ⟨map, vm, id, rfl, rfl, hleaves, hstack rfl⟩

/-- `exec_initrd` ends before it gets to `exec`, or is an `exec`. -/
theorem execInitrd_cases {path : String} {res : ExecResult}
    (h : Returns M (execInitrd env core path sys) F (res, sys') F') :
    ((∀ id, res ≠ .success id) ∧ sys' = sys ∧ F' = F) ∨
      ∃ elf, env.program path = some elf ∧ Returns M (exec core elf sys) F (res, sys') F' := by
  unfold execInitrd execRaw at h
  split at h
  · next content hcontent =>
    split at h
    · next elf helf => exact .inr ⟨elf, by rw [Env.program, hcontent, Option.bind_some, helf], h⟩
    · obtain ⟨hpair, rfl⟩ := returns_pure.mp h
      cases hpair
      exact .inl ⟨by simp, rfl, rfl⟩
  · obtain ⟨hpair, rfl⟩ := returns_pure.mp h
    cases hpair
    exact .inl ⟨by simp, rfl, rfl⟩

theorem spawn_cases {path : String} {res : SpawnResult}
    (h : Returns M (spawn env core path sys) F (res, sys') F') :
    ∃ res', Returns M (execInitrd env core path sys) F (res', sys') F' := by
  simp only [spawn, returns_bind] at h
  obtain ⟨⟨r, sys₁⟩, F₁, hexec, h⟩ := h
  have hsame : sys₁ = sys' ∧ F₁ = F' := by
    split at h
    · next heq =>
      cases heq
      obtain ⟨hpair, rfl⟩ := returns_pure.mp h
      cases hpair
      exact ⟨rfl, rfl⟩
    · next heq =>
      cases heq
      obtain ⟨hpair, rfl⟩ := returns_pure.mp h
      cases hpair
      exact ⟨rfl, rfl⟩
  obtain ⟨rfl, rfl⟩ := hsame
  exact ⟨r, hexec⟩

/-! ## The parts of a tick -/

/-- The state in which `tick` looks at the list of tasks. -/
def ticked (core : ℕ) (procState : TaskProcState) (pinfo : ProcInfo) (sys : System) : System :=
  saveState core procState
    { sys.setProc core { pinfo with tickMiss := 0 } with clock := (sys.clock + 1) % 2 ^ 64 }

theorem tickBegin_cases {procState : TaskProcState}
    (h : Returns M (tickBegin env core procState sys) F sys' F') :
    ∃ pinfo, sys.procs core = some pinfo ∧
      ((sys.tasks ≠ [] ∧ sys' = ticked core procState pinfo sys ∧ F' = F) ∨
        (sys.tasks = [] ∧ ∃ elf id, env.program "/bin/init" = some elf ∧
          Returns M (exec core elf (ticked core procState pinfo sys)) F
            (.success id, sys') F')) := by
  simp only [tickBegin, returns_bind, returns_lift, procInfo_eq_ok] at h
  obtain ⟨pinfo, _, ⟨hpinfo, rfl⟩, h⟩ := h
  refine ⟨pinfo, hpinfo, ?_⟩
  -- saving the state leaves the list of tasks alone
  have htasks : (ticked core procState pinfo sys).tasks = sys.tasks := by
    unfold ticked saveState
    split <;> rfl
  change Returns M (startInit env core (ticked core procState pinfo sys)) _ sys' F' at h
  unfold startInit at h
  rw [htasks] at h
  split at h
  · next hempty =>
    rw [returns_bind] at h
    obtain ⟨⟨r, sys₁⟩, F₁, hexec, h⟩ := h
    split at h
    · next id _ heq =>
      cases heq
      obtain ⟨rfl, rfl⟩ := returns_pure.mp h
      rcases execInitrd_cases hexec with ⟨hne, -, -⟩ | ⟨elf, helf, hexec⟩
      · exact absurd rfl (hne id)
      · exact .inr ⟨hempty, elf, id, helf, hexec⟩
    -- `/bin/init` cannot be run: `tick` panics
    · exact absurd h returns_fail
  · next hne =>
    obtain ⟨rfl, rfl⟩ := returns_pure.mp h
    exact .inl ⟨hne, rfl, rfl⟩

/-- The state after the current task of a core has been released. -/
def letGo (core : ℕ) (pinfo : ProcInfo) (r : TaskRef) (sys : System) : System :=
  (sys.setProc core { pinfo with currentTask := none }).setTask r
    { sys.task r with state := .pending }

theorem releaseExpired_cases (h : Returns M (releaseExpired env core sys) F sys' F') :
    ∃ pinfo, sys.procs core = some pinfo ∧
      ((sys' = sys ∧ F' = F ∧ ∀ r, pinfo.currentTask = some r → expired env sys r = .ok false) ∨
        ∃ r, pinfo.currentTask = some r ∧ expired env sys r = .ok true ∧
          Returns M (arcDrop r (letGo core pinfo r sys)) F sys' F') := by
  simp only [releaseExpired, returns_bind, returns_lift, procInfo_eq_ok] at h
  obtain ⟨pinfo, _, ⟨hpinfo, rfl⟩, h⟩ := h
  refine ⟨pinfo, hpinfo, ?_⟩
  split at h
  · next hnone =>
    obtain ⟨rfl, rfl⟩ := returns_pure.mp h
    exact .inl ⟨rfl, rfl, by simp [hnone]⟩
  · next r hr =>
    simp only [returns_bind, returns_lift] at h
    obtain ⟨b, _, ⟨hexp, rfl⟩, h⟩ := h
    cases b with
    | false =>
      obtain ⟨rfl, rfl⟩ := returns_pure.mp h
      refine .inl ⟨rfl, rfl, fun r' hr' => ?_⟩
      rwa [← Option.some.inj (hr.symm.trans hr')]
    | true => exact .inr ⟨r, hr, hexp, h⟩

theorem pickTask_cases {clock : ℕ} {locks : Locks} (h : pickTask core clock locks sys = .ok sys') :
    ∃ pinfo, sys.procs core = some pinfo ∧
      ((sys' = sys ∧
          (pinfo.currentTask = none → selectFrom sys locks sys.tasks 0 none = none)) ∨
        ∃ index guard, pinfo.currentTask = none ∧
          selectFrom sys locks sys.tasks 0 none = some (index, guard) ∧
          sys' = ((sys.setTask guard { sys.task guard with state := .running clock }).arcClone
            (sys.tasks.getD index guard)).setProc core
              { pinfo with currentTask := some (sys.tasks.getD index guard) }) := by
  simp only [pickTask, except_bind_eq_ok, procInfo_eq_ok] at h
  obtain ⟨pinfo, hpinfo, h⟩ := h
  refine ⟨pinfo, hpinfo, ?_⟩
  split at h
  · next r hr =>
    cases h
    exact .inl ⟨rfl, by simp [hr]⟩
  · next hnone =>
    split at h
    · next hsel =>
      cases h
      exact .inl ⟨rfl, fun _ => hsel⟩
    · next index guard hsel =>
      cases h
      exact .inr ⟨index, guard, hnone, hsel, rfl⟩

/-- A tick misses the lock on `TASKS`, or goes through its three parts. -/
theorem tick_cases {procState : TaskProcState} {locks : Locks}
    (h : Returns M (tick env core procState locks sys) F sys' F') :
    ∃ pinfo, sys.procs core = some pinfo ∧
      ((pinfo.obtains locks = false ∧ F' = F ∧
          sys' = sys.setProc core { pinfo with tickMiss := pinfo.tickMiss + 1 }) ∨
        (pinfo.obtains locks = true ∧ ∃ sys₁ F₁ sys₂,
          Returns M (tickBegin env core procState sys) F sys₁ F₁ ∧
          Returns M (releaseExpired env core sys₁) F₁ sys₂ F' ∧
          pickTask core sys.clock locks sys₂ = .ok sys')) := by
  simp only [tick, returns_bind, returns_lift, procInfo_eq_ok] at h
  obtain ⟨pinfo, _, ⟨hpinfo, rfl⟩, h⟩ := h
  refine ⟨pinfo, hpinfo, ?_⟩
  split at h
  · next hobtains =>
    simp only [tickLocked, returns_bind, returns_lift] at h
    obtain ⟨sys₁, F₁, hbegin, sys₂, F₂, hrelease, hpick, rfl⟩ := h
    exact .inr ⟨hobtains, sys₁, F₁, sys₂, hbegin, hrelease, hpick⟩
  · next hmiss =>
    obtain ⟨rfl, rfl⟩ := returns_pure.mp h
    exact .inl ⟨by simpa using hmiss, rfl, rfl⟩

/-! ## Selection -/

/-- Among tasks of equal priority the loop selects the first pending one that it can lock, and its
index is that of its guard. -/
theorem selectFrom_eq_some {locks : Locks} {rs : List TaskRef} {i j : ℕ}
    {best : Option (ℕ × TaskRef)} {b : TaskRef} (hprio : ∀ r ∈ rs, (sys.task r).priority = 0)
    (h : selectFrom sys locks rs i best = some (j, b)) :
    best = some (j, b) ∨
      ∃ k, rs[k]? = some b ∧ j = i + k ∧ (sys.task b).state = .pending := by
  induction rs generalizing i best with
  | nil => exact .inl h
  | cons r rs ih =>
    have hrest : ∀ best', selectFrom sys locks rs (i + 1) best' = some (j, b) →
        best' = some (j, b) ∨ ∃ k, (r :: rs)[k]? = some b ∧ j = i + k ∧
          (sys.task b).state = .pending := by
      intro best' h'
      rcases ih (fun r' hr' => hprio r' (List.mem_cons_of_mem _ hr')) h' with hbest
        | ⟨k, hk, hj, hp⟩
      · exact .inl hbest
      · exact .inr ⟨k + 1, by simpa using hk, by omega, hp⟩
    unfold selectFrom at h
    split_ifs at h with hlock hstate
    · exact hrest _ h
    · exact hrest _ h
    · have hpending : (sys.task r).state = .pending := not_not.mp hstate
      cases best with
      | some jb =>
        -- a task of priority zero never replaces the best one
        rw [hprio r List.mem_cons_self] at h
        exact hrest _ (by simpa using h)
      | none =>
        rcases hrest _ h with hbest | hfound
        · cases hbest
          exact .inr ⟨0, rfl, rfl, hpending⟩
        · exact .inr hfound

/-! ## Leaving the kernel, and exit -/

theorem apply_cases {map : MemoryMap} (h : Returns M (map.apply core sys) F sys' F') :
    ∃ pinfo, sys.procs core = some pinfo ∧
      ((pinfo.activeMapping = some map.id ∧ sys' = sys ∧ F' = F) ∨
        (pinfo.activeMapping ≠ some map.id ∧ ∃ vm,
          Returns M (applyMappings map.mappings sys.vm) F vm F' ∧
          sys' = { sys with vm }.setProc core { pinfo with activeMapping := some map.id })) := by
  simp only [MemoryMap.apply, returns_bind, returns_lift, procInfo_eq_ok] at h
  obtain ⟨pinfo, _, ⟨hpinfo, rfl⟩, h⟩ := h
  refine ⟨pinfo, hpinfo, ?_⟩
  split at h
  · next hactive => exact .inl ⟨hactive, returns_pure.mp h⟩
  · next hactive =>
    simp only [returns_bind, returns_pure] at h
    obtain ⟨vm, _, hmap, rfl, rfl⟩ := h
    exact .inr ⟨hactive, vm, hmap, rfl⟩

theorem continueCurrent_cases {resetTimer : Bool} {writes : List LapicWrite} {target : Target}
    (h : Returns M (continueCurrent core resetTimer sys) F ((writes, target), sys') F') :
    ∃ pinfo, sys.procs core = some pinfo ∧
      ((pinfo.currentTask = none ∧ target = .eventLoop ∧ sys' = sys ∧ F' = F) ∨
        ∃ r, pinfo.currentTask = some r ∧ target = .user r (sys'.task r).procstate ∧
          Returns M ((sys.task r).memoryMap.apply core sys) F sys' F') := by
  simp only [continueCurrent, returns_bind, returns_lift, procInfo_eq_ok] at h
  obtain ⟨pinfo, _, ⟨hpinfo, rfl⟩, h⟩ := h
  refine ⟨pinfo, hpinfo, ?_⟩
  split at h
  · next hnone =>
    obtain ⟨hpair, rfl⟩ := returns_pure.mp h
    cases hpair
    exact .inl ⟨hnone, rfl, rfl, rfl⟩
  · next r hr =>
    simp only [returns_bind, returns_pure] at h
    obtain ⟨sys₁, F₁, happly, hpair, rfl⟩ := h
    cases hpair
    exact .inr ⟨r, hr, rfl, happly⟩

theorem exitCurrent_cases (h : Returns M (exitCurrent core sys) F sys' F') :
    ∃ pinfo, sys.procs core = some pinfo ∧
      ((pinfo.currentTask = none ∧ sys' = sys ∧ F' = F) ∨
        ∃ r, pinfo.currentTask = some r ∧
          ((sys.tasks.findIdx? (fun r' => (sys.task r').id = (sys.task r).id) = none ∧
              Returns M (arcDrop r (sys.setProc core { pinfo with currentTask := none })) F
              sys' F') ∨
            ∃ index sys₁ F₁,
              sys.tasks.findIdx? (fun r' => (sys.task r').id = (sys.task r).id) = some index ∧
              Returns M (arcDrop (sys.tasks.getD index r)
                { sys.setProc core { pinfo with currentTask := none } with
                  tasks := sys.tasks.eraseIdx index }) F sys₁ F₁ ∧
              Returns M (arcDrop r sys₁) F₁ sys' F')) := by
  simp only [exitCurrent, returns_bind, returns_lift, procInfo_eq_ok] at h
  obtain ⟨pinfo, _, ⟨hpinfo, rfl⟩, h⟩ := h
  refine ⟨pinfo, hpinfo, ?_⟩
  split at h
  · next hnone => exact .inl ⟨hnone, returns_pure.mp h⟩
  · next r hr =>
    refine .inr ⟨r, hr, ?_⟩
    split at h
    -- the task is not in the list any more, so that one reference is dropped instead of two
    · next hfind => exact .inl ⟨hfind, h⟩
    · next index hfind =>
      rw [returns_bind] at h
      obtain ⟨sys₁, F₁, hdrop, h⟩ := h
      exact .inr ⟨index, sys₁, F₁, hfind, hdrop, h⟩

end HeliumOS.Proc
