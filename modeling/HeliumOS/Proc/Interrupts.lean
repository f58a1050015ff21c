import HeliumOS.Proc.Selection
import HeliumOS.Proc.Syscall
import HeliumOS.Proc.Timer

/-!
# Timer Interrupts and the Local APIC

The cores take turns in entering the kernel, by a timer interrupt or a system call, and leave it by
`continue_current`.  Every core has a local APIC, which delivers the next timer interrupt only when
the last one has been acknowledged.

`continue_current` acknowledges the interrupt and loads the quantum only on the way back to a task;
the way to the event loop does neither.  Which way it is depends on what `tick` does before:
whether it gets the lock on the tasks, whether the time slice of the current task ends, and whether
the selection then finds a task that it can lock.

## Main results
- `tick_current`: a tick leaves the core a task exactly if `KeepsTask` holds of the state before it.
- `timer_acknowledged_iff`: a timer interrupt is acknowledged, and the timer reloaded, exactly then.
- `idle_core_never_enters`: a core that went to the event loop never enters the kernel again.
-/

namespace HeliumOS.Proc

open HeliumOS.Lib HeliumOS.Lib.AllocProg HeliumOS.Mem HeliumOS.Mem.Virt HeliumOS.Elf HeliumOS.Dev

/-! ## Definitions -/

/-- The timer of a local APIC: whether its interrupt has been delivered and not acknowledged yet,
and the initial count. -/
structure Lapic where
  inService : Bool
  initialCount : ℕ
  deriving DecidableEq, Repr

def Lapic.write (lapic : Lapic) : LapicWrite → Lapic
  | .timerReset init => { lapic with initialCount := init }
  | .eoi => { lapic with inService := false }

/-- The cores between two entries into the kernel, with the screen and the `COUNT` of timer
interrupts on the primary core. -/
structure Cores where
  sys : System
  pmm : PhysicalFrameAllocator
  fb : Framebuffer
  count : ℕ
  lapic : ℕ → Lapic

/-- The ways into the kernel. -/
inductive Entry where
  | timer (core : ℕ) (procState : TaskProcState) (locks : Locks)
  | syscall (core : ℕ) (state : TaskProcState)

def Entry.core : Entry → ℕ
  | .timer core _ _ => core
  | .syscall core _ => core

/-- A core enters the kernel and leaves it again. -/
inductive EntryStep (env : Env) : Cores → Entry → Cores → Prop where
  | timer {m : Cores} {core : ℕ} {procState : TaskProcState} {locks : Locks}
      {writes : List LapicWrite}
      {target : Target} {count : ℕ} {fb : Framebuffer} {sys : System} {pmm : PhysicalFrameAllocator}
      (hrun : (timerInter2 env core procState locks m.count m.fb m.sys).run
        PhysicalFrameAllocator.pool m.pmm = .ok (((writes, target), count, fb, sys), pmm)) :
      EntryStep env m (.timer core procState locks)
        { sys, pmm, fb, count,
          lapic := Function.update m.lapic core
            (writes.foldl Lapic.write { m.lapic core with inService := true }) }
  | syscall {m : Cores} {core : ℕ} {state : TaskProcState} {writes : List LapicWrite}
      {target : Target} {fb : Framebuffer} {sys : System} {pmm : PhysicalFrameAllocator}
      (hrun : (syscallHandle2 env core state m.fb m.sys).run PhysicalFrameAllocator.pool m.pmm =
        .ok (((writes, target), fb, sys), pmm)) :
      EntryStep env m (.syscall core state)
        { sys, pmm, fb, count := m.count,
          lapic := Function.update m.lapic core (writes.foldl Lapic.write (m.lapic core)) }

/-- The local APIC of a core delivers no timer interrupt while the last one is in service. -/
def Delivers (m : Cores) : Entry → Prop
  | .timer core _ _ => (m.lapic core).inService = false
  | .syscall _ _ => True

/-- Since its delivery the timer interrupt has been acknowledged, and the timer of the core reloaded
with its `schedule_quantum`. -/
def Acknowledged (m : Cores) (core : ℕ) : Prop :=
  ∃ pinfo, m.sys.procs core = some pinfo ∧
    m.lapic core = ⟨false, pinfo.scheduleQuantum % 2 ^ 32⟩

/-- The time slice of the task behind `r` is over at the next tick. -/
def System.SliceEnds (env : Env) (sys : System) (r : TaskRef) : Prop :=
  ∃ since, (sys.task r).state = .running since ∧
    ((sys.task r).priority + 10) * env.numcores ≤ (sys.clock + 1) % 2 ^ 64 - since

/-- The selection finds a task that it can lock: the `/bin/init` that is started when there are no
tasks, a task that is pending, or the one that has just been released. -/
def System.Finds (sys : System) (locks : Locks) (released : Option TaskRef) : Prop :=
  (sys.tasks = [] ∧ locks.write 0 = true) ∨
    ∃ j r, sys.tasks[j]? = some r ∧ locks.write j = true ∧
      ((sys.task r).state = .pending ∨ released = some r)

/-- What must hold before a tick for the core to have a task after it.  If the lock on the tasks is
missed, the core has one.  Otherwise the time slice of the task goes on, or another one is found. -/
def KeepsTask (env : Env) (core : ℕ) (locks : Locks) (sys : System) : Prop :=
  ∃ pinfo, sys.procs core = some pinfo ∧
    ((pinfo.obtains locks = false ∧ pinfo.currentTask ≠ none) ∨
      (pinfo.obtains locks = true ∧
        ((∃ r, pinfo.currentTask = some r ∧ ¬ sys.SliceEnds env r) ∨
          sys.Finds locks pinfo.currentTask)))

/-! ## The task after a tick -/

section Ticking

variable {M F F' : Set PhysFrame} {env : Env} {core : ℕ} {sys sys' : System} {locks : Locks}

theorem expired_cases {r : TaskRef} {b : Bool} (h : expired env sys r = .ok b) :
    ∃ since, (sys.task r).state = .running since ∧
      (b = true ↔ ((sys.task r).priority + 10) * env.numcores ≤ sys.clock - since) := by
  unfold expired at h
  split at h
  · cases h
  · next since hstate =>
    simp only [lifeExpectancy, except_bind_eq_ok, checkedSub_eq_ok, checkedAdd_eq_ok,
      checkedMul_eq_ok, Except.ok.injEq] at h
    obtain ⟨_, ⟨-, rfl⟩, _, ⟨_, ⟨-, rfl⟩, -, rfl⟩, rfl⟩ := h
    exact ⟨since, hstate, by simp⟩

/-- What the first part of a tick leaves to the other two. -/
structure Begun (core : ℕ) (locks : Locks) (sys sys' : System) : Prop where
  current : sys'.current core = sys.current core
  clock : sys'.clock = (sys.clock + 1) % 2 ^ 64
  running : ∀ r since, (sys'.task r).state = .running since →
    (sys.task r).state = .running since ∧ (sys'.task r).priority = (sys.task r).priority
  finds : ∀ released, sys.Finds locks released ↔ ∃ j r, sys'.tasks[j]? = some r ∧
    locks.write j = true ∧ ((sys'.task r).state = .pending ∨ released = some r)

theorem Begun.of_same (hne : sys.tasks ≠ []) (hsame : SameSchedule sys sys')
    (hclock : sys'.clock = (sys.clock + 1) % 2 ^ 64) : Begun core locks sys sys' where
  current := hsame.current core
  clock := hclock
  running r _ hstate := ⟨(hsame.state r).symm.trans hstate, hsame.priority r⟩
  finds released := by
    simp only [System.Finds, hne, false_and, false_or, hsame.tasks, hsame.state]

/-- There are no tasks, and `/bin/init` is started.  It is pending, and the only one in the list. -/
theorem Begun.of_push (hempty : sys.tasks = []) (hsame : SameSchedule sys sys')
    (hclock : sys'.clock = (sys.clock + 1) % 2 ^ 64) (procstate : TaskProcState) (map : MemoryMap) :
    Begun core locks sys (sys'.push procstate map) where
  current := hsame.current core
  clock := hclock
  running r since hstate := by
    -- the new task is pending
    have hr : r ≠ sys'.nextRef := by
      rintro rfl
      rw [System.push_task_self] at hstate
      cases hstate
    rw [System.push_task_of_ne _ _ _ hr] at hstate ⊢
    exact ⟨(hsame.state r).symm.trans hstate, hsame.priority r⟩
  finds released := by
    -- it is the only one in the list
    have htasks : (sys'.push procstate map).tasks = [sys'.nextRef] := by
      show sys'.tasks ++ [sys'.nextRef] = _
      rw [hsame.tasks, hempty, List.nil_append]
    rw [System.Finds, htasks, hempty]
    constructor
    · rintro (⟨-, hlock⟩ | ⟨j, r, hget, -⟩)
      · exact ⟨0, sys'.nextRef, rfl, hlock, .inl (by rw [System.push_task_self])⟩
      · cases hget
    · rintro ⟨j, r, hget, hlock, -⟩
      have hj : j < 1 := (List.getElem?_eq_some_iff.mp hget).1
      obtain rfl : j = 0 := by omega
      exact .inl ⟨rfl, hlock⟩

/-- The first part of a tick leaves the list as it was, or makes it the list of `/bin/init` alone.
-/
theorem begun_of_tickBegin {procState : TaskProcState}
    (h : Returns M (tickBegin env core procState sys) F sys' F') : Begun core locks sys sys' := by
  obtain ⟨pinfo, hpinfo, hcases⟩ := tickBegin_cases h
  have hsame := SameSchedule.ticked hpinfo procState
  rcases hcases with ⟨hne, rfl, -⟩ | ⟨hempty, elf, id, -, hexec⟩
  · exact .of_same hne hsame (clock_ticked_mod procState)
  · obtain ⟨vm, ⟨hfailed, -⟩ | ⟨procstate, map, rfl⟩⟩ := exec_cases hexec
    · exact absurd rfl (hfailed id)
    · exact .of_push hempty (hsame.trans (.vm _ vm)) (clock_ticked_mod procState) procstate map

theorem current_pickTask {clock : ℕ} (h : pickTask core clock locks sys = .ok sys') :
    sys'.current core ≠ none ↔ sys.current core ≠ none ∨ ∃ j r, Offers sys locks j r := by
  have hloop := selectFrom_none sys locks sys.tasks 0
  rw [offersFrom_zero] at hloop
  obtain ⟨pinfo, hpinfo, ⟨rfl, hnothing⟩ | ⟨index, guard, -, hsel, rfl⟩⟩ := pickTask_cases h
  · refine ⟨.inl, fun h => h.elim id ?_⟩
    rintro ⟨j, r, hoffer⟩ hnone
    have hsel := hnothing ((current_of_procs hpinfo).symm.trans hnone)
    rcases hloop with ⟨-, hempty⟩ | ⟨index, first, g, b, hsome, -⟩
    · exact hempty j r hoffer
    · rw [hsel] at hsome
      cases hsome
  · refine ⟨fun _ => .inr ?_, fun _ => by simp⟩
    rcases hloop with ⟨hnone, -⟩ | ⟨index, first, g, b, -, hfirst, -⟩
    · rw [hsel] at hnone
      cases hnone
    · exact ⟨index, first, hfirst⟩

theorem offers_released {pinfo : ProcInfo} {r r' : TaskRef} {strong j : ℕ} :
    Offers ((letGo core pinfo r sys).setStrong r strong) locks j r' ↔
      sys.tasks[j]? = some r' ∧ locks.write j = true ∧
        ((sys.task r').state = .pending ∨ some r = some r') := by
  have hstate : (((letGo core pinfo r sys).setStrong r strong).task r').state = .pending ↔
      (sys.task r').state = .pending ∨ some r = some r' := by
    rw [System.setStrong_task, letGo]
    by_cases hr : r' = r
    · subst hr
      simp
    · rw [System.setTask_task_of_ne _ _ _ hr, System.setProc_task]
      simp [Ne.symm hr]
  rw [Offers, hstate]
  rfl

/-- Once the lock on the tasks is held, the core ends up with a task exactly if the time slice of
its task goes on, or the selection finds one. -/
theorem current_of_begun {sys₁ sys₂ : System} {clock : ℕ} (hbegun : Begun core locks sys sys₁)
    (hrelease : Returns M (releaseExpired env core sys₁) F sys₂ F')
    (hpick : pickTask core clock locks sys₂ = .ok sys') :
    sys'.current core ≠ none ↔
      (∃ r, sys.current core = some r ∧ ¬ sys.SliceEnds env r) ∨
        sys.Finds locks (sys.current core) := by
  rw [current_pickTask hpick, ← hbegun.current]
  obtain ⟨pinfo, hpinfo, hcases⟩ := releaseExpired_cases hrelease
  rw [hbegun.finds, current_of_procs hpinfo]
  -- the slice ends when `tick` finds it expired
  have hends {r : TaskRef} {b : Bool} (h : expired env sys₁ r = .ok b) :
      sys.SliceEnds env r ↔ b = true := by
    obtain ⟨since, hstate, hb⟩ := expired_cases h
    obtain ⟨hbefore, hprio⟩ := hbegun.running r since hstate
    rw [hb, hprio, hbegun.clock, System.SliceEnds, hbefore]
    simp
  -- the slice goes on, or the task is released before the selection
  rcases hcases with ⟨rfl, -, hgoes⟩ | ⟨r, hr, hexp, hdrop⟩
  · rw [current_of_procs hpinfo]
    cases hcur : pinfo.currentTask with
    | none => simp [Offers]
    | some r =>
      have hgoes := (hends (hgoes r hcur)).not.mpr (by simp)
      simp [hgoes]
  · obtain ⟨rfl, -⟩ := returns_arcDrop.mp hdrop
    have hidle : (letGo core pinfo r sys₁).current core = none := by simp [letGo]
    simp [offers_released, hr, hidle, (hends hexp).mpr rfl]

/-- **The task after a tick**, from the state before it: the current task, the missed ticks and the
lock, the end of the time slice, and the pending tasks that can be locked. -/
theorem tick_current {procState : TaskProcState}
    (h : Returns M (tick env core procState locks sys) F sys' F') :
    sys'.current core ≠ none ↔ KeepsTask env core locks sys := by
  obtain ⟨pinfo, hpinfo, hcases⟩ := tick_cases h
  simp only [KeepsTask, hpinfo, Option.some.injEq, exists_eq_left']
  rcases hcases with ⟨hmiss, -, rfl⟩ | ⟨hobtains, sys₁, F₁, sys₂, hbegin, hrelease, hpick⟩
  · simp [hmiss]
  · rw [current_of_begun (begun_of_tickBegin hbegin) hrelease hpick, current_of_procs hpinfo]
    simp [hobtains]

end Ticking

/-! ## Leaving the kernel -/

section Leaving

variable {M F F' : Set PhysFrame} {env : Env} {core : ℕ} {sys sys' : System}

/-- What `continue_current` writes to the local APIC. -/
theorem continueCurrent_writes {resetTimer : Bool} {writes : List LapicWrite} {target : Target}
    (h : Returns M (continueCurrent core resetTimer sys) F ((writes, target), sys') F') :
    ∃ pinfo, sys'.procs core = some pinfo ∧
      ((pinfo.currentTask = none ∧ writes = []) ∨
        (pinfo.currentTask ≠ none ∧ writes =
          if resetTimer then [.timerReset (pinfo.scheduleQuantum % 2 ^ 32), .eoi] else [])) := by
  simp only [continueCurrent, returns_bind, returns_lift, procInfo_eq_ok] at h
  obtain ⟨pinfo, _, ⟨hpinfo, rfl⟩, h⟩ := h
  -- the event loop is entered without a write
  split at h
  · next hnone =>
    obtain ⟨hpair, -⟩ := returns_pure.mp h
    cases hpair
    exact ⟨pinfo, hpinfo, .inl ⟨hnone, rfl⟩⟩
  · next r hr =>
    simp only [returns_bind, returns_pure] at h
    obtain ⟨sys₁, F₁, happly, hpair, -⟩ := h
    cases hpair
    obtain ⟨pinfo', hpinfo', hcases⟩ := apply_cases happly
    obtain rfl : pinfo = pinfo' := Option.some.inj (hpinfo.symm.trans hpinfo')
    rcases hcases with ⟨-, rfl, -⟩ | ⟨-, vm, -, rfl⟩
    · exact ⟨pinfo, hpinfo, .inr ⟨by simp [hr], rfl⟩⟩
    · exact ⟨_, System.setProc_procs_self .., .inr ⟨by simp [hr], rfl⟩⟩

/-- How a timer interrupt leaves the local APIC. -/
theorem timerInter2_lapic {procState : TaskProcState} {locks : Locks} {count count' : ℕ}
    {fb fb' : Framebuffer} {writes : List LapicWrite} {target : Target} (lapic : Lapic)
    (h : Returns M (timerInter2 env core procState locks count fb sys) F
      ((writes, target), count', fb', sys') F') :
    ∃ pinfo, sys'.procs core = some pinfo ∧
      ((pinfo.currentTask = none ∧ writes.foldl Lapic.write lapic = ⟨lapic.inService, 2 ^ 32 - 1⟩) ∨
        (pinfo.currentTask ≠ none ∧
          writes.foldl Lapic.write lapic = ⟨false, pinfo.scheduleQuantum % 2 ^ 32⟩)) := by
  obtain ⟨sys₁, F₁, vm, writes', -, hcont, rfl⟩ := timerInter2_cases h
  obtain ⟨pinfo, hpinfo, ⟨hnone, rfl⟩ | ⟨hsome, rfl⟩⟩ := continueCurrent_writes hcont
  · exact ⟨pinfo, hpinfo, .inl ⟨hnone, rfl⟩⟩
  · exact ⟨pinfo, hpinfo, .inr ⟨hsome, rfl⟩⟩

theorem current_continueCurrent {resetTimer : Bool} {res : List LapicWrite × Target}
    (h : Returns M (continueCurrent core resetTimer sys) F (res, sys') F') :
    sys'.current core = sys.current core := by
  obtain ⟨pinfo, -, ⟨-, -, rfl, -⟩ | ⟨r, -, -, happly⟩⟩ := continueCurrent_cases h
  · rfl
  · obtain ⟨pinfo', hpinfo', ⟨-, rfl, -⟩ | ⟨-, vm, -, rfl⟩⟩ := apply_cases happly
    · rfl
    · rw [System.setProc_current_self, current_of_procs hpinfo']

/-- Only what the given core has in `PROC_TABLE` is different. -/
def OnlyCore (core : ℕ) (sys sys' : System) : Prop := ∀ c ≠ core, sys'.procs c = sys.procs c

theorem OnlyCore.trans {sys₁ : System} (h : OnlyCore core sys sys₁) (h' : OnlyCore core sys₁ sys') :
    OnlyCore core sys sys' := fun c hc => (h' c hc).trans (h c hc)

theorem OnlyCore.of_eq (h : sys'.procs = sys.procs) : OnlyCore core sys sys' := fun _ _ => by rw [h]

theorem OnlyCore.of_setProc {pinfo : ProcInfo} (h : sys'.procs = (sys.setProc core pinfo).procs) :
    OnlyCore core sys sys' := fun _ hc => by rw [h, System.setProc_procs_of_ne _ _ _ hc]

theorem onlyCore_arcDrop {sys₁ : System} {r : TaskRef}
    (hdrop : Returns M (arcDrop r sys₁) F sys' F') (h : OnlyCore core sys sys₁) :
    OnlyCore core sys sys' :=
  h.trans (.of_eq (procs_arcDrop hdrop))

theorem procs_exec {elf : ElfFile} {res : ExecResult}
    (h : Returns M (exec core elf sys) F (res, sys') F') : sys'.procs = sys.procs := by
  obtain ⟨vm, ⟨-, rfl⟩ | ⟨procstate, map, rfl⟩⟩ := exec_cases h <;> rfl

theorem onlyCore_tickBegin {procState : TaskProcState}
    (h : Returns M (tickBegin env core procState sys) F sys' F') : OnlyCore core sys sys' := by
  obtain ⟨pinfo, -, hcases⟩ := tickBegin_cases h
  have hticked : OnlyCore core sys (ticked core procState pinfo sys) := by
    apply OnlyCore.of_setProc
    show _ = (sys.setProc core { pinfo with tickMiss := 0 }).procs
    unfold ticked saveState
    split <;> rfl
  rcases hcases with ⟨-, rfl, -⟩ | ⟨-, elf, id, -, hexec⟩
  · exact hticked
  · exact hticked.trans (.of_eq (procs_exec hexec))

theorem onlyCore_releaseExpired (h : Returns M (releaseExpired env core sys) F sys' F') :
    OnlyCore core sys sys' := by
  obtain ⟨pinfo, -, ⟨rfl, -⟩ | ⟨r, -, -, hdrop⟩⟩ := releaseExpired_cases h
  · exact .of_eq rfl
  · exact onlyCore_arcDrop hdrop (.of_setProc rfl)

theorem onlyCore_pickTask {clock : ℕ} {locks : Locks}
    (h : pickTask core clock locks sys = .ok sys') :
    OnlyCore core sys sys' := by
  obtain ⟨pinfo, -, ⟨rfl, -⟩ | ⟨index, guard, -, -, rfl⟩⟩ := pickTask_cases h
  · exact .of_eq rfl
  · exact .of_setProc rfl

/-- A tick changes the entry of its own core only. So do all other ways through the kernel, below.
-/
theorem onlyCore_tick {procState : TaskProcState} {locks : Locks}
    (h : Returns M (tick env core procState locks sys) F sys' F') : OnlyCore core sys sys' := by
  obtain ⟨pinfo, -, ⟨-, -, rfl⟩ | ⟨-, sys₁, F₁, sys₂, hbegin, hrelease, hpick⟩⟩ := tick_cases h
  · exact .of_setProc rfl
  · exact ((onlyCore_tickBegin hbegin).trans (onlyCore_releaseExpired hrelease)).trans
      (onlyCore_pickTask hpick)

theorem onlyCore_continueCurrent {resetTimer : Bool} {res : List LapicWrite × Target}
    (h : Returns M (continueCurrent core resetTimer sys) F (res, sys') F') :
    OnlyCore core sys sys' := by
  obtain ⟨pinfo, -, ⟨-, -, rfl, -⟩ | ⟨r, -, -, happly⟩⟩ := continueCurrent_cases h
  · exact .of_eq rfl
  · obtain ⟨pinfo', -, ⟨-, rfl, -⟩ | ⟨-, vm, -, rfl⟩⟩ := apply_cases happly
    · exact .of_eq rfl
    · exact .of_setProc rfl

theorem onlyCore_timerInter2 {procState : TaskProcState} {locks : Locks} {count count' : ℕ}
    {fb fb' : Framebuffer} {res : List LapicWrite × Target}
    (h : Returns M (timerInter2 env core procState locks count fb sys) F
      (res, count', fb', sys') F') :
    OnlyCore core sys sys' := by
  obtain ⟨sys₁, F₁, vm, writes, htick, hcont, -⟩ := timerInter2_cases h
  have hpixel : OnlyCore core sys₁ { sys₁ with vm } := .of_eq rfl
  exact ((onlyCore_tick htick).trans hpixel).trans (onlyCore_continueCurrent hcont)

theorem onlyCore_exitCurrent (h : Returns M (exitCurrent core sys) F sys' F') :
    OnlyCore core sys sys' := by
  obtain ⟨pinfo, -, h⟩ := exitCurrent_cases h
  obtain ⟨-, rfl, -⟩ | ⟨r, -, ⟨-, hdrop⟩ | ⟨index, sys₁, F₁, -, hdrop, hdrop'⟩⟩ := h
  · exact .of_eq rfl
  · exact onlyCore_arcDrop hdrop (.of_setProc rfl)
  · exact onlyCore_arcDrop hdrop' (onlyCore_arcDrop hdrop (.of_setProc rfl))

theorem onlyCore_handle {call : Syscall} {fb fb' : Framebuffer} {result : SyscallResult}
    (h : Returns M (call.handle env core fb sys) F (result, fb', sys') F') :
    OnlyCore core sys sys' := by
  -- only `exit` writes to `PROC_TABLE`
  cases call with
  | exit exitcode =>
    simp only [Syscall.handle, returns_bind, returns_pure, Prod.mk.injEq] at h
    obtain ⟨sys₁, F₁, hexit, ⟨-, -, rfl⟩, -⟩ := h
    exact onlyCore_exitCurrent hexit
  | getPid =>
    simp only [Syscall.handle, returns_bind, returns_pure, Prod.mk.injEq] at h
    obtain ⟨-, -, -, -, -, -, ⟨-, -, rfl⟩, -⟩ := h
    exact .of_eq rfl
  | debugDraw x y r g b =>
    simp only [Syscall.handle, returns_bind, returns_pure, Prod.mk.injEq] at h
    obtain ⟨-, -, -, ⟨-, -, rfl⟩, -⟩ := h
    exact .of_eq rfl
  | spawn path len =>
    simp only [Syscall.handle, returns_bind, returns_lift] at h
    obtain ⟨path, _, ⟨-, rfl⟩, ⟨res, sys₁⟩, F₁, hspawn, h⟩ := h
    obtain ⟨res', hexec⟩ := spawn_cases hspawn
    have hprocs : sys₁.procs = sys.procs := by
      rcases execInitrd_cases hexec with ⟨-, rfl, -⟩ | ⟨elf, -, hexec⟩
      · rfl
      · exact procs_exec hexec
    -- both results are returned with the system that `spawn` leaves
    cases res <;>
    · obtain ⟨hpair, -⟩ := returns_pure.mp h
      cases hpair
      exact .of_eq hprocs

/-- Before a system call there is a task on the core, and no other core is touched. -/
theorem syscallHandle2_spec {state : TaskProcState} {fb fb' : Framebuffer}
    {res : List LapicWrite × Target}
    (h : Returns M (syscallHandle2 env core state fb sys) F (res, fb', sys') F') :
    sys.current core ≠ none ∧ OnlyCore core sys sys' := by
  simp only [syscallHandle2, returns_bind] at h
  obtain ⟨⟨fb₂, sys₂, next⟩, F₂, hserve, h⟩ := h
  obtain ⟨pinfo, r, hpinfo, hr, result, sys₁, pinfo₁, hdispatch, -, rfl, rfl⟩ :=
    syscallServe_cases hserve
  refine ⟨by simp [System.current, hpinfo, hr], ?_⟩
  have hfirst : OnlyCore core sys sys₁ := by
    unfold syscallDispatch at hdispatch
    split at hdispatch
    · exact fun c hc => (onlyCore_handle hdispatch) c hc
    · obtain ⟨hpair, -⟩ := returns_pure.mp hdispatch
      cases hpair
      exact .of_eq rfl
  -- the write-back changes the task only
  cases hnext : pinfo₁.currentTask with
  | none =>
    simp only [hnext] at h
    obtain ⟨hpair, -⟩ := returns_pure.mp h
    cases hpair
    exact hfirst
  | some r₁ =>
    simp only [hnext, returns_bind, returns_pure, Prod.mk.injEq, Prod.exists] at h
    obtain ⟨writes, target, sys₃, F₃, hcont, ⟨-, -, rfl⟩, -⟩ := h
    exact hfirst.trans fun c hc => (onlyCore_continueCurrent hcont) c hc

end Leaving

/-! ## Acknowledgement -/

section Runs

variable {env : Env} {core : ℕ} {m m' m₀ : Cores} {es : List Entry} {e : Entry}

theorem EntryStep.sound (h : EntryStep env m e m') (hsound : m.pmm.Sound) : m'.pmm.Sound := by
  cases h with
  | timer hrun => exact (run_returns PhysicalFrameAllocator.freeSet hsound hrun).2.1
  | syscall hrun => exact (run_returns PhysicalFrameAllocator.freeSet hsound hrun).2.1

/-- How a core leaves a timer interrupt. -/
theorem EntryStep.lapic_timer {procState : TaskProcState} {locks : Locks}
    (h : EntryStep env m (.timer core procState locks) m') (hsound : m.pmm.Sound) :
    ∃ pinfo, m'.sys.procs core = some pinfo ∧
      ((pinfo.currentTask = none ∧ m'.lapic core = ⟨true, 2 ^ 32 - 1⟩) ∨
        (pinfo.currentTask ≠ none ∧ m'.lapic core = ⟨false, pinfo.scheduleQuantum % 2 ^ 32⟩)) := by
  cases h with
  | timer hrun =>
    obtain ⟨hret, -, -⟩ := run_returns PhysicalFrameAllocator.freeSet hsound hrun
    simp only [Function.update_self]
    exact timerInter2_lapic { m.lapic core with inService := true } hret

theorem EntryStep.current_timer {procState : TaskProcState} {locks : Locks}
    (h : EntryStep env m (.timer core procState locks) m') (hsound : m.pmm.Sound) :
    m'.sys.current core ≠ none ↔ KeepsTask env core locks m.sys := by
  cases h with
  | timer hrun =>
    obtain ⟨hret, -, -⟩ := run_returns PhysicalFrameAllocator.freeSet hsound hrun
    obtain ⟨sys₁, F₁, vm, writes', htick, hcont, -⟩ := timerInter2_cases hret
    rw [← tick_current htick, current_continueCurrent hcont]
    rfl

/-- **Which timer interrupts are acknowledged.**  In any run of timer interrupts and system calls,
a core that leaves a timer interrupt has acknowledged it and reloaded the timer exactly if, before
the interrupt, `tick` was going to leave it a task: it had one and would miss the lock on the
tasks, or the time slice of its task went on, or the selection would find a task to lock. -/
theorem timer_acknowledged_iff {procState : TaskProcState} {locks : Locks} (hsound : m₀.pmm.Sound)
    (hrun : Run (EntryStep env) m₀ es m)
    (hstep : EntryStep env m (.timer core procState locks) m') :
    Acknowledged m' core ↔ KeepsTask env core locks m.sys := by
  have hm : m.pmm.Sound :=
    hrun.preserves (I := fun m => m.pmm.Sound) hsound fun _ _ _ h hstep => hstep.sound h
  obtain ⟨pinfo, hpinfo, hcases⟩ := hstep.lapic_timer hm
  rw [← hstep.current_timer hm, current_of_procs hpinfo, Acknowledged, hpinfo]
  rcases hcases with ⟨hnone, hlapic⟩ | ⟨hsome, hlapic⟩
  · simp [hlapic, hnone]
  · simp [hlapic, hsome]

/-- A core that is waiting in the event loop with its timer interrupt in service. -/
structure Stuck (core : ℕ) (m : Cores) : Prop where
  sound : m.pmm.Sound
  idle : m.sys.current core = none
  inService : (m.lapic core).inService = true

/-- A step that touches neither the core's entry nor its local APIC leaves it stuck. -/
theorem Stuck.of_eq (h : Stuck core m) (hsound : m'.pmm.Sound)
    (hprocs : m'.sys.procs core = m.sys.procs core) (hlapic : m'.lapic core = m.lapic core) :
    Stuck core m' where
  sound := hsound
  idle := by simpa only [System.current, hprocs] using h.idle
  inService := by rw [hlapic, h.inService]

/-- A core that is stuck makes no step, and no other core can help it. -/
theorem Stuck.step (h : Stuck core m) (hstep : Guarded (EntryStep env) Delivers m e m') :
    e.core ≠ core ∧ Stuck core m' := by
  obtain ⟨hstep, hdelivers⟩ := hstep
  have hsound := hstep.sound h.sound
  cases hstep with
  | @timer core' _ _ writes target count fb sys pmm hrun =>
    -- the local APIC of the core delivers nothing
    have hne : core' ≠ core := by
      rintro rfl
      exact absurd hdelivers (by simp [Delivers, h.inService])
    obtain ⟨hret, -, -⟩ := run_returns PhysicalFrameAllocator.freeSet h.sound hrun
    exact ⟨hne, h.of_eq hsound (onlyCore_timerInter2 hret core hne.symm)
      (Function.update_of_ne hne.symm ..)⟩
  | @syscall core' _ writes target fb sys pmm hrun =>
    -- a system call comes from a task, and the core has none
    obtain ⟨hret, -, -⟩ := run_returns PhysicalFrameAllocator.freeSet h.sound hrun
    obtain ⟨hcurrent, honly⟩ := syscallHandle2_spec hret
    have hne : core' ≠ core := by
      rintro rfl
      exact hcurrent h.idle
    exact ⟨hne, h.of_eq hsound (honly core hne.symm) (Function.update_of_ne hne.symm ..)⟩

/-- A core that leaves a timer interrupt for the event loop never enters the kernel again, since it
goes there without acknowledging the interrupt. -/
theorem idle_core_never_enters {procState : TaskProcState} {locks : Locks} {m'' : Cores}
    (hsound : m.pmm.Sound) (hstep : EntryStep env m (.timer core procState locks) m')
    (hidle : m'.sys.current core = none) (hrun : Run (Guarded (EntryStep env) Delivers) m' es m'') :
    ∀ e ∈ es, e.core ≠ core := by
  obtain ⟨pinfo, hpinfo, hcases⟩ := hstep.lapic_timer hsound
  have hnone : pinfo.currentTask = none := by simpa [System.current, hpinfo] using hidle
  have hstuck : Stuck core m' := by
    refine ⟨hstep.sound hsound, hidle, ?_⟩
    rcases hcases with ⟨-, hlapic⟩ | ⟨hsome, -⟩
    · rw [hlapic]
    · exact absurd hnone hsome
  exact hrun.forall_labels hstuck fun _ _ _ h hstep => h.step hstep

end Runs

/-! ## An idle core -/

/-- Two cores without tasks, whose timers are running. -/
def idleCores : Cores where
  sys := { bootSystem with
    procs := fun core => if core ≤ 1 then some ⟨0, none, 1000, none⟩ else none }
  pmm := freshPmm
  fb := screen
  count := 0
  lapic _ := ⟨false, 1000⟩

/-- Core 0 with a task that it runs. -/
def busyCore : Cores where
  sys := oneTask
  pmm := freshPmm
  fb := screen
  count := 0
  lapic _ := ⟨false, 1000⟩

/-- A core with a task in the middle of its slice. -/
theorem timer_acknowledged_busy :
    ∃ m', busyCore.pmm.Sound ∧ Run (EntryStep noFiles) busyCore [] busyCore ∧
      EntryStep noFiles busyCore (.timer 0 interrupted ⟨true, fun _ => true⟩) m' ∧
      KeepsTask noFiles 0 ⟨true, fun _ => true⟩ busyCore.sys ∧ Acknowledged m' 0 := by
  obtain ⟨sys', writes, state, hrun⟩ : ∃ sys' writes state,
      (timerInter2 noFiles 0 interrupted ⟨true, fun _ => true⟩ 0 screen busyCore.sys).run
        PhysicalFrameAllocator.pool busyCore.pmm =
          .ok (((writes, .user 0 state), 0, screen, sys'), freshPmm) := ⟨_, _, _, rfl⟩
  have hkeeps : KeepsTask noFiles 0 ⟨true, fun _ => true⟩ busyCore.sys := by
    refine ⟨_, rfl, .inr ⟨rfl, .inl ⟨0, rfl, ?_⟩⟩⟩
    rintro ⟨since, hstate, hle⟩
    cases hstate
    exact absurd hle (by decide)
  refine ⟨_, freshPmm_sound, .nil _, .timer hrun, hkeeps, ?_⟩
  exact (timer_acknowledged_iff freshPmm_sound (.nil _) (.timer hrun)).mpr hkeeps

/-- Core 0 is interrupted while core 1 holds the lock on the tasks.  It waits in the event loop with
its timer interrupt in service and the largest initial count. -/
theorem idle_core_not_acknowledged :
    ∃ m', idleCores.pmm.Sound ∧ Run (EntryStep noFiles) idleCores [] idleCores ∧
      EntryStep noFiles idleCores (.timer 0 default ⟨false, fun _ => true⟩) m' ∧
      m'.lapic 0 = ⟨true, 2 ^ 32 - 1⟩ ∧ ¬ Acknowledged m' 0 := by
  obtain ⟨sys', hrun⟩ : ∃ sys',
      (timerInter2 noFiles 0 default ⟨false, fun _ => true⟩ 0 screen idleCores.sys).run
        PhysicalFrameAllocator.pool idleCores.pmm =
          .ok ((([.timerReset ((2 ^ 64 - 1) % 2 ^ 32)], .eventLoop), 0, screen, sys'), freshPmm) :=
    ⟨_, rfl⟩
  refine ⟨_, freshPmm_sound, .nil _, .timer hrun, rfl, ?_⟩
  rintro ⟨pinfo, -, hlapic⟩
  simp [Lapic.write] at hlapic

end HeliumOS.Proc
