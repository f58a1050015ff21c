import HeliumOS.Proc.Steps

/-!
# Timer Interrupts and Saved Registers

`timer_inter_2` runs `tick`, draws a pixel on the primary core, and runs `continue_current`.  A tick
that misses the lock on `TASKS` returns before the line that saves the registers of the interrupted
task, and the task is resumed all the same.

- `timer_resumes_iff`: the state applied for a task that stays current is the one that was passed
  in exactly when the lock was obtained, or the task was last saved in that very state.
-/

namespace HeliumOS.Proc

open HeliumOS.Lib HeliumOS.Lib.AllocProg HeliumOS.Mem HeliumOS.Mem.Virt HeliumOS.Elf HeliumOS.Dev

variable {M F F' : Set PhysFrame} {sys sys' : System} {env : Env} {core : ℕ}

/-! ## Where registers are written -/

/-- The first part of a tick saves the registers of the interrupted task. -/
theorem procstate_tickBegin {procState : TaskProcState} {r : TaskRef}
    (hcur : sys.current core = some r) (hr : r < sys.nextRef)
    (h : Returns M (tickBegin env core procState sys) F sys' F') :
    (sys'.task r).procstate = procState := by
  obtain ⟨pinfo, hpinfo, hcases⟩ := tickBegin_cases h
  have hcur' : pinfo.currentTask = some r := by simpa [System.current, hpinfo] using hcur
  have hticked : ticked core procState pinfo sys =
      System.setTask { sys.setProc core { pinfo with tickMiss := 0 } with
        clock := (sys.clock + 1) % 2 ^ 64 } r { sys.task r with procstate := procState } := by
    unfold ticked saveState
    simp only [System.current, System.setProc_procs_self, Option.bind_some, hcur']
    rfl
  have hsaved : ((ticked core procState pinfo sys).task r).procstate = procState := by
    rw [hticked, System.setTask_task_self]
  rcases hcases with ⟨-, rfl, -⟩ | ⟨-, elf, id, -, hexec⟩
  · exact hsaved
  · rw [task_exec (by rw [hticked]; exact hr) hexec, hsaved]

theorem procstate_releaseExpired (h : Returns M (releaseExpired env core sys) F sys' F')
    (r : TaskRef) : (sys'.task r).procstate = (sys.task r).procstate := by
  obtain ⟨pinfo, -, ⟨rfl, -⟩ | ⟨r', -, -, hdrop⟩⟩ := releaseExpired_cases h
  · rfl
  · obtain ⟨rfl, -⟩ := returns_arcDrop.mp hdrop
    rw [System.setStrong_task, letGo]
    by_cases hr : r = r'
    · rw [hr, System.setTask_task_self]
    · rw [System.setTask_task_of_ne _ _ _ hr, System.setProc_task]

theorem procstate_pickTask {clock : ℕ} {locks : Locks}
    (h : pickTask core clock locks sys = .ok sys') (r : TaskRef) :
    (sys'.task r).procstate = (sys.task r).procstate := by
  obtain ⟨pinfo, -, ⟨rfl, -⟩ | ⟨index, guard, -, -, rfl⟩⟩ := pickTask_cases h
  · rfl
  · rw [System.setProc_task, System.arcClone, System.setStrong_task]
    by_cases hr : r = guard
    · rw [hr, System.setTask_task_self]
    · rw [System.setTask_task_of_ne _ _ _ hr]

theorem task_apply {map : MemoryMap} (h : Returns M (map.apply core sys) F sys' F') :
    sys'.task = sys.task := by
  obtain ⟨pinfo, -, ⟨-, rfl, -⟩ | ⟨-, vm, -, rfl⟩⟩ := apply_cases h
  · rfl
  · rfl

/-- After a tick a task that was interrupted has the registers that were passed in, unless the
tick missed the lock. -/
theorem procstate_tick {procState : TaskProcState} {locks : Locks} {pinfo : ProcInfo} {r : TaskRef}
    (hpinfo : sys.procs core = some pinfo) (hcur : pinfo.currentTask = some r)
    (hr : r < sys.nextRef) (h : Returns M (tick env core procState locks sys) F sys' F') :
    (sys'.task r).procstate =
      if pinfo.obtains locks then procState else (sys.task r).procstate := by
  obtain ⟨pinfo', hpinfo', hcases⟩ := tick_cases h
  obtain rfl : pinfo = pinfo' := Option.some.inj (hpinfo.symm.trans hpinfo')
  rcases hcases with ⟨hmiss, -, rfl⟩ | ⟨hobtains, sys₁, F₁, sys₂, hbegin, hrelease, hpick⟩
  · rw [hmiss]
    rfl
  · rw [hobtains, if_pos rfl, procstate_pickTask hpick, procstate_releaseExpired hrelease]
    exact procstate_tickBegin (by simp [System.current, hpinfo, hcur]) hr hbegin

/-! ## The interrupt as a whole -/

theorem drawTick_cases {count count' : ℕ} {fb fb' : Framebuffer}
    (h : drawTick env core count fb sys = .ok (count', fb', sys')) :
    ∃ vm, sys' = { sys with vm } := by
  unfold drawTick at h
  split at h
  · simp only [except_bind_eq_ok, Except.ok.injEq, Prod.mk.injEq, Prod.exists] at h
    obtain ⟨-, vm, -, -, -, rfl⟩ := h
    exact ⟨vm, rfl⟩
  · cases h
    exact ⟨sys.vm, rfl⟩

theorem timerInter2_cases {procState : TaskProcState} {locks : Locks} {count count' : ℕ}
    {fb fb' : Framebuffer} {writes : List LapicWrite} {target : Target}
    (h : Returns M (timerInter2 env core procState locks count fb sys) F
      ((writes, target), count', fb', sys') F') :
    ∃ sys₁ F₁ vm writes', Returns M (tick env core procState locks sys) F sys₁ F₁ ∧
      Returns M (continueCurrent core true { sys₁ with vm }) F₁ ((writes', target), sys') F' ∧
      writes = .timerReset ((2 ^ 64 - 1) % 2 ^ 32) :: writes' := by
  simp only [timerInter2, returns_bind, returns_lift, returns_pure, Prod.mk.injEq, Prod.exists] at h
  obtain ⟨sys₁, F₁, htick, _, _, sys₂, _, ⟨hdraw, rfl⟩, writes', target', sys₃, F₃, hcont,
    ⟨⟨rfl, rfl⟩, rfl, rfl, rfl⟩, rfl⟩ := h
  obtain ⟨vm, rfl⟩ := drawTick_cases hdraw
  exact ⟨sys₁, _, vm, writes', htick, hcont, rfl⟩

/-- **The registers of an interrupted task survive exactly the interrupts that get the lock.** A
`tick` that misses the lock on `TASKS` saves nothing, and the task is rolled back to the state in
which it was last saved. After more than `MAX_TICK_MISS` misses in a row `tick` waits for the lock,
so that nothing is lost then. -/
theorem timer_resumes_iff {procState state : TaskProcState} {locks : Locks} {pinfo : ProcInfo}
    {r : TaskRef} {count count' : ℕ} {fb fb' : Framebuffer} {pmm pmm' : PhysicalFrameAllocator}
    {writes : List LapicWrite} (hsound : pmm.Sound) (hpinfo : sys.procs core = some pinfo)
    (hcur : pinfo.currentTask = some r) (hr : r < sys.nextRef)
    (hrun : (timerInter2 env core procState locks count fb sys).run
      PhysicalFrameAllocator.pool pmm =
      .ok (((writes, .user r state), count', fb', sys'), pmm')) :
    state = procState ↔
      MAX_TICK_MISS < pinfo.tickMiss ∨ locks.tasks = true ∨
        (sys.task r).procstate = procState := by
  obtain ⟨hret, -, -⟩ := run_returns PhysicalFrameAllocator.freeSet hsound hrun
  obtain ⟨sys₁, F₁, vm, writes', htick, hcont, -⟩ := timerInter2_cases hret
  -- what is resumed is the state that `tick` has left in the task
  have hstate : state = (sys₁.task r).procstate := by
    obtain ⟨pinfo', -, ⟨-, htarget, -⟩ | ⟨r', -, htarget, happly⟩⟩ := continueCurrent_cases hcont
    · cases htarget
    · obtain ⟨rfl, rfl⟩ := Target.user.inj htarget
      rw [task_apply happly]
      rfl
  rw [hstate, procstate_tick hpinfo hcur hr htick]
  cases hobtains : pinfo.obtains locks with
  | true =>
    simp only [ProcInfo.obtains, Bool.or_eq_true, decide_eq_true_eq] at hobtains
    rw [if_pos rfl]
    exact ⟨fun _ => hobtains.imp_right .inl, fun _ => rfl⟩
  | false =>
    simp only [ProcInfo.obtains, Bool.or_eq_false_iff, decide_eq_false_iff_not] at hobtains
    simp [hobtains]

/-- One core that runs a task for its first tick, with the map of the task installed. -/
def oneTask : System where
  vm := freshVm
  arena _ := ⟨2, ⟨1, 0, default, .new, .running 0⟩⟩
  nextRef := 1
  tasks := [0]
  clock := 1
  idCount := 1
  procs core := if core = 0 then some ⟨0, some 0, 1000, some 0⟩ else none

/-- The screen of the machines in these examples. -/
def screen : Framebuffer := ⟨.argb, 1024, 768, 4096, 0xfffffffffc000000, none, none, none⟩

/-- The registers of the task some instructions later. -/
def interrupted : TaskProcState := { (default : TaskProcState) with rip := 1 }

theorem timer_resumes_interrupted :
    ∃ sys' writes state, freshPmm.Sound ∧ oneTask.current 0 = some 0 ∧
      (timerInter2 noFiles 0 interrupted ⟨true, fun _ => true⟩ 0 screen oneTask).run
        PhysicalFrameAllocator.pool freshPmm =
          .ok (((writes, .user 0 state), 0, screen, sys'), freshPmm) ∧
      state = interrupted := by
  obtain ⟨sys', writes, state, hrun⟩ : ∃ sys' writes state,
      (timerInter2 noFiles 0 interrupted ⟨true, fun _ => true⟩ 0 screen oneTask).run
        PhysicalFrameAllocator.pool freshPmm =
          .ok (((writes, .user 0 state), 0, screen, sys'), freshPmm) :=
    ⟨_, _, _, rfl⟩
  refine ⟨sys', writes, state, freshPmm_sound, rfl, hrun, ?_⟩
  exact (timer_resumes_iff freshPmm_sound (by rfl) (by rfl) (by decide) hrun).mpr
    (.inr (.inl rfl))

/-- Another core holds the lock on `TASKS`: the task goes on with its old registers. -/
theorem timer_rolls_back :
    ∃ sys' writes state, freshPmm.Sound ∧ oneTask.current 0 = some 0 ∧
      (timerInter2 noFiles 0 interrupted ⟨false, fun _ => true⟩ 0 screen oneTask).run
        PhysicalFrameAllocator.pool freshPmm =
          .ok (((writes, .user 0 state), 0, screen, sys'), freshPmm) ∧
      state ≠ interrupted := by
  refine ⟨_, _, _, freshPmm_sound, rfl, rfl, ?_⟩
  decide

end HeliumOS.Proc
