import HeliumOS.Proc.Scheduler
import HeliumOS.Proc.Spaces

/-!
# Page Tables along the Runs of the Scheduler

- `TrackedStep.moves`: each step of the scheduler is one `Move` at most.
- `resume_complete`, `resume_isolated` and `no_free_leaf` say when the page tables are what the
  tasks need.  The conditions are about the first task that a core resumed.
- `second_task_incomplete`, `second_task_not_isolated` and `exit_leaves_free_leaf` are about one run
  of two tasks in which the first one exits.
-/

namespace HeliumOS.Proc

open HeliumOS.Lib HeliumOS.Lib.AllocProg HeliumOS.Mem HeliumOS.Mem.Virt HeliumOS.Elf

/-! ## The steps of the scheduler as moves -/

/-- The address spaces of a system. -/
def spaces (sys : System) (F : Set PhysFrame) (first : ℕ → Option TaskRef) : Spaces where
  vm := sys.vm
  free := F
  tasks := sys.tasks
  map r := (sys.task r).memoryMap
  next := sys.nextRef
  active c := (sys.procs c).bind ProcInfo.activeMapping
  first := first

section Refinement

variable {M F F' : Set PhysFrame} {sys sys' : System} {env : Env} {core : ℕ} {pinfo : ProcInfo}
  {r : TaskRef} {first : ℕ → Option TaskRef}

/-- What the address spaces of a system depend on: page tables, the list of tasks, their maps, the
next reference and the active mapping of each core. A function of the scheduler that keeps these
five is invisible to them. -/
theorem spaces_eq (hvm : sys'.vm = sys.vm) (htasks : sys'.tasks = sys.tasks)
    (hmap : ∀ r, (sys'.task r).memoryMap = (sys.task r).memoryMap)
    (hnext : sys'.nextRef = sys.nextRef)
    (hactive : ∀ c, (sys'.procs c).bind ProcInfo.activeMapping =
      (sys.procs c).bind ProcInfo.activeMapping) :
    spaces sys' F first = spaces sys F first := by
  simp only [spaces, hvm, htasks, hmap, hnext, hactive]

theorem active_setProc (hpinfo : sys.procs core = some pinfo) {pinfo' : ProcInfo}
    (hsame : pinfo'.activeMapping = pinfo.activeMapping) (c : ℕ) :
    ((sys.setProc core pinfo').procs c).bind ProcInfo.activeMapping =
      (sys.procs c).bind ProcInfo.activeMapping := by
  by_cases hc : c = core
  · rw [hc, System.setProc_procs_self, hpinfo, Option.bind_some, Option.bind_some, hsame]
  · rw [System.setProc_procs_of_ne _ _ _ hc]

theorem memoryMap_setTask {t : Task} (h : t.memoryMap = (sys.task r).memoryMap) (r' : TaskRef) :
    ((sys.setTask r t).task r').memoryMap = (sys.task r').memoryMap := by
  by_cases hr : r' = r
  · rw [hr, System.setTask_task_self, h]
  · rw [System.setTask_task_of_ne _ _ _ hr]

theorem spaces_ticked (hpinfo : sys.procs core = some pinfo) (procState : TaskProcState) :
    spaces (ticked core procState pinfo sys) F first = spaces sys F first := by
  have hactive : ∀ c, ((sys.setProc core { pinfo with tickMiss := 0 }).procs c).bind
      ProcInfo.activeMapping = (sys.procs c).bind ProcInfo.activeMapping :=
      active_setProc hpinfo rfl
  unfold ticked saveState
  split
  · exact spaces_eq rfl rfl (fun r' => memoryMap_setTask (by rfl) r') rfl hactive
  · exact spaces_eq rfl rfl (fun _ => rfl) rfl hactive

theorem spaces_letGo (hpinfo : sys.procs core = some pinfo) (strong : ℕ) :
    spaces ((letGo core pinfo r sys).setStrong r strong) F first = spaces sys F first := by
  refine spaces_eq rfl rfl (fun r' => ?_) rfl (active_setProc hpinfo (by rfl))
  rw [System.setStrong_task]
  exact memoryMap_setTask (by rfl) r'

theorem spaces_picked (hpinfo : sys.procs core = some pinfo) (clock : ℕ) :
    spaces (picked core clock pinfo r sys) F first = spaces sys F first := by
  refine spaces_eq rfl rfl (fun r' => ?_) rfl fun c => ?_
  · rw [picked, System.setProc_task, System.arcClone, System.setStrong_task]
    exact memoryMap_setTask (by rfl) r'
  · exact active_setProc hpinfo (by rfl) c

/-- `exec` loads a task or fails. -/
theorem exec_moves {elf : ElfFile} {res : ExecResult} (hsane : Sane (spaces sys F first))
    (h : Returns M (exec core elf sys) F (res, sys') F') :
    ∃ move, Moves M (spaces sys F first) move (spaces sys' F' first) ∧
      (move = .load ∨ move = .fail) := by
  rcases exec_spec hsane.inv hsane.fresh h with
    ⟨map, vm, id, -, rfl, hload, -⟩ | ⟨vm, -, rfl, hev⟩
  · refine ⟨.load, ?_, .inl rfl⟩
    -- the spaces after a task was pushed, field by field
    have hpush : spaces (System.push { sys with vm } (.new elf.header.entrypoint) map) F' first =
        { spaces sys F first with
          vm, free := F', tasks := sys.tasks ++ [sys.nextRef],
          map := Function.update (fun r => (sys.task r).memoryMap) sys.nextRef map,
          next := sys.nextRef + 1 } := by
      simp only [spaces, Spaces.mk.injEq, true_and, and_true]
      refine ⟨rfl, rfl, ?_, rfl, rfl⟩
      funext r
      by_cases hr : r = sys.nextRef
      · rw [hr, Function.update_self]
        exact congrArg Task.memoryMap (System.push_task_self { sys with vm } _ map)
      · rw [Function.update_of_ne hr]
        exact congrArg Task.memoryMap (System.push_task_of_ne { sys with vm } _ map hr)
    rw [hpush]
    exact .load hload
  · exact ⟨.fail, .fail hev, .inr rfl⟩

/-- The first part of a tick is invisible, or starts init. -/
theorem tickBegin_moves {procState : TaskProcState} (hsane : Sane (spaces sys F first))
    (h : Returns M (tickBegin env core procState sys) F sys' F') :
    spaces sys' F' first = spaces sys F first ∨
      ∃ move, Moves M (spaces sys F first) move (spaces sys' F' first) ∧
        (move = .load ∨ move = .fail) := by
  obtain ⟨pinfo, hpinfo, ⟨-, rfl, rfl⟩ | ⟨-, elf, id, -, hexec⟩⟩ := tickBegin_cases h
  · exact .inl (spaces_ticked hpinfo procState)
  · rw [← spaces_ticked hpinfo procState] at hsane ⊢
    exact .inr (exec_moves hsane hexec)

/-- A tick can do one thing that the address spaces see: load the initial task, or fail to. -/
theorem tick_moves {procState : TaskProcState} {locks : Locks} (hcons : Consistent sys)
    (hsane : Sane (spaces sys F first))
    (h : Returns M (tick env core procState locks sys) F sys' F') :
    spaces sys' F' first = spaces sys F first ∨
      ∃ move, Moves M (spaces sys F first) move (spaces sys' F' first) ∧
        (move = .load ∨ move = .fail) := by
  obtain ⟨pinfo, hpinfo, ⟨-, rfl, rfl⟩ | ⟨-, sys₁, F₁, sys₂, hbegin, hrelease, hpick⟩⟩ :=
    tick_cases h
  · exact .inl (spaces_eq rfl rfl (fun _ => rfl) rfl (active_setProc hpinfo (by rfl)))
  · have h₁ := (tickBegin_consistent hcons hbegin).1
    have h₂ := (releaseExpired_consistent h₁ hrelease).1
    obtain ⟨rfl, pinfo₁, hpinfo₁, hreleased⟩ := releaseExpired_of_consistent h₁ hrelease
    -- letting go of a task and picking one change no map
    have hspaces₂ : spaces sys₂ F' first = spaces sys₁ F' first := by
      rcases hreleased with rfl | ⟨r, -, rfl⟩
      · rfl
      · exact spaces_letGo hpinfo₁ 1
    have hspaces₃ : spaces sys' F' first = spaces sys₂ F' first := by
      obtain ⟨pinfo₂, hpinfo₂, rfl | ⟨r, -, -, -, rfl⟩⟩ := pickTask_of_consistent h₂ hpick
      · rfl
      · exact spaces_picked hpinfo₂ _
    rw [hspaces₃, hspaces₂]
    exact tickBegin_moves hsane hbegin

/-- `exit_current` is invisible on an idle core; elsewhere the task leaves and its frames are given
back. -/
theorem exitCurrent_moves (hcons : Consistent sys)
    (h : Returns M (exitCurrent core sys) F sys' F') :
    spaces sys' F' first = spaces sys F first ∨
      ∃ r, sys.current core = some r ∧
        Moves M (spaces sys F first) (.exit r) (spaces sys' F' first) := by
  obtain ⟨pinfo, hpinfo, ⟨-, rfl, rfl⟩ | ⟨r, hr, rfl, rfl⟩⟩ := exitCurrent_of_consistent hcons h
  · exact .inl rfl
  · have hcore : sys.current core = some r := (current_of_procs hpinfo).trans hr
    refine .inr ⟨r, hcore, ?_⟩
    -- dropping the last reference frees what the map of the task owns
    have hexited : ∀ F', spaces (exited core pinfo r sys) F' first =
        { spaces sys F first with free := F', tasks := sys.tasks.erase r } := by
      intro F'
      simp only [spaces, Spaces.mk.injEq, true_and, and_true]
      refine ⟨rfl, rfl, ?_, rfl, ?_⟩
      · rw [exited, System.setStrong_task]
        rfl
      · funext c
        exact active_setProc hpinfo (by rfl) c
    rw [hexited]
    exact .exit (hcons.current core r hcore).1

/-- `continue_current` is invisible, or installs the map of the current task. -/
theorem continueCurrent_moves {resetTimer : Bool} {out : List LapicWrite × Target}
    (hcons : Consistent sys)
    (h : Returns M (continueCurrent core resetTimer sys) F (out, sys') F') :
    (sys.current core = none ∧ spaces sys' F' first = spaces sys F first) ∨
      ∃ r, sys.current core = some r ∧
        (((spaces sys F first).active core = some (sys.task r).memoryMap.id ∧
            spaces sys' F' first = spaces sys F first) ∨
          Moves M (spaces sys F first) (.apply core r)
            (spaces sys' F' (Function.update first core (some r)))) := by
  obtain ⟨pinfo, hpinfo, ⟨hnone, -, rfl, rfl⟩ | ⟨r, hr, -, happly⟩⟩ := continueCurrent_cases h
  · exact .inl ⟨(current_of_procs hpinfo).trans hnone, rfl⟩
  · have hcore : sys.current core = some r := (current_of_procs hpinfo).trans hr
    obtain ⟨pinfo', hpinfo', hcases⟩ := apply_cases happly
    have hactive : (spaces sys F first).active core = pinfo'.activeMapping := by
      simp only [spaces, hpinfo', Option.bind_some]
    refine .inr ⟨r, hcore, ?_⟩
    -- `apply` compares the ids: equal ones make it return at once
    rcases hcases with ⟨hskip, rfl, rfl⟩ | ⟨hne, vm, hmap, rfl⟩
    · exact .inl ⟨hactive.trans hskip, rfl⟩
    · refine .inr ?_
      have hspaces : spaces (System.setProc { sys with vm } core
          { pinfo' with activeMapping := some (sys.task r).memoryMap.id }) F'
          (Function.update first core (some r)) =
          { spaces sys F first with
            vm, free := F',
            active := Function.update (spaces sys F first).active core
              (some (sys.task r).memoryMap.id)
            first := Function.update first core (some r) } := by
        simp only [spaces, Spaces.mk.injEq, true_and, and_true]
        refine ⟨rfl, rfl, rfl, rfl, ?_⟩
        funext c
        by_cases hc : c = core
        · subst hc
          simp
        · rw [System.setProc_procs_of_ne _ _ _ hc, Function.update_of_ne hc]
      rw [hspaces]
      exact .apply (hcons.current core r hcore).1 (hactive ▸ hne) hmap

end Refinement

/-! ## Runs -/

/-- A world together with the first task that each core has resumed. -/
structure Tracked extends World where
  first : ℕ → Option TaskRef

namespace Tracked

def spaces (w : Tracked) : Spaces := Proc.spaces w.sys w.pmm.free w.first

/-- The first tasks after a step. -/
def track (w : Tracked) : Event → ℕ → Option TaskRef
  | .continueCurrent core _ =>
    if w.first core = none then Function.update w.first core (w.sys.current core) else w.first
  | _ => w.first

/-- No task has been created yet. -/
structure Start (w : Tracked) : Prop where
  tasks : w.sys.tasks = []
  idle : ∀ c, w.sys.current c = none
  inactive : ∀ c, (w.sys.procs c).bind ProcInfo.activeMapping = none
  first : ∀ c, w.first c = none
  sound : w.pmm.Sound
  inv : w.sys.vm.Inv
  fresh : Disjoint w.pmm.free w.sys.vm.tables

/-- What holds along every run. -/
structure Fine (w : Tracked) : Prop where
  consistent : Consistent w.sys
  sane : Sane w.spaces
  sound : w.pmm.Sound

end Tracked

/-- A step, with the first tasks kept up to date. -/
def TrackedStep (env : Env) (w : Tracked) (e : Event) (w' : Tracked) : Prop :=
  Step env w.toWorld e w'.toWorld ∧ w'.first = w.track e

section Runs

variable {env : Env} {w w' : Tracked} {e : Event} {es : List Event}

/-- Resuming a task applies its map, or it is nothing that the address spaces see. -/
theorem TrackedStep.moves_continueCurrent {core : ℕ} {resetTimer : Bool} (h : w.Fine)
    (hstep : TrackedStep env w (.continueCurrent core resetTimer) w') :
    w'.spaces = w.spaces ∨ ∃ r, Moves w.pmm.managed w.spaces (.apply core r) w'.spaces := by
  obtain ⟨hstep, hfirst⟩ := hstep
  have hret := (hstep.returns h.sound).1
  have hsane : Sane (spaces w.sys w.pmm.free w.first) := h.sane
  unfold Tracked.spaces
  rw [Event.code, returns_bind] at hret
  obtain ⟨⟨out, sys₁⟩, F₁, hcont, hret⟩ := hret
  obtain ⟨hsys, hfree⟩ := returns_pure.mp hret
  rw [← hsys, ← hfree] at hcont
  simp only [Tracked.track] at hfirst
  have hactive := hsane.active core
  rcases continueCurrent_moves h.consistent hcont with ⟨hcur, hsame⟩ | ⟨r, hcur, hcases⟩
  · -- there is no task to resume
    have hkeep : w'.first = w.first := by
      rw [hfirst, hcur]
      split_ifs with hnone
      · rw [← hnone, Function.update_eq_self]
      · rfl
    exact .inl (by rw [hkeep, hsame])
  · rcases hcases with ⟨hskip, hsame⟩ | hmove
    · -- the map of the task is the active one, so that it is not the first that the core resumes
      have hkeep : w'.first = w.first := by
        rw [hfirst, if_neg fun hnone => ?_]
        rw [hskip, show (spaces w.sys w.pmm.free w.first).first core = none from hnone] at hactive
        cases hactive
      exact .inl (by rw [hkeep, hsame])
    · have hnone : w.first core = none := by
        obtain ⟨hr, hne⟩ := hmove.apply_inv
        exact hsane.first_eq_none hr hne
      rw [hfirst, if_pos hnone, hcur]
      exact .inr ⟨r, hmove⟩

theorem Tracked.spaces_eq (hfirst : w'.first = w.first) :
    w'.spaces = Proc.spaces w'.sys w'.pmm.free w.first := by
  rw [Tracked.spaces, hfirst]

/-- What `exec`, `spawn` and `tick` have in common: no task leaves, and no map is applied. -/
theorem Tracked.moves_of_load {M : Set PhysFrame} {s s' : Spaces}
    (h : ∃ move, Moves M s move s' ∧ (move = .load ∨ move = .fail)) :
    ∃ move, Moves M s move s' ∧
      (∀ r, move = .exit r → ∃ core, e = .exitCurrent core ∧ w.sys.current core = some r) ∧
      ∀ c r, move = .apply c r → c = e.core := by
  obtain ⟨move, hmove, rfl | rfl⟩ := h
  · exact ⟨_, hmove, by simp, by simp⟩
  · exact ⟨_, hmove, by simp, by simp⟩

/-- A step is one move at most.  Only `exit_current` makes tasks leave, and only
`continue_current` installs maps. -/
theorem TrackedStep.moves (h : w.Fine) (hstep : TrackedStep env w e w') :
    w'.spaces = w.spaces ∨
      ∃ move, Moves w.pmm.managed w.spaces move w'.spaces ∧
        (∀ r, move = .exit r → ∃ core, e = .exitCurrent core ∧ w.sys.current core = some r) ∧
        ∀ c r, move = .apply c r → c = e.core := by
  have hfirst := hstep.2
  have hret := (hstep.1.returns h.sound).1
  have hsane : Sane (spaces w.sys w.pmm.free w.first) := h.sane
  -- one case for each function that a core can call
  cases e with
  | tick core procState locks =>
    rw [Tracked.spaces_eq (w := w) hfirst]
    rcases tick_moves h.consistent hsane hret with hsame | hmove
    · exact .inl hsame
    · exact .inr (Tracked.moves_of_load hmove)
  | spawn core path =>
    simp only [Event.code, returns_bind, returns_pure, Prod.exists] at hret
    obtain ⟨res, sys₁, F₁, hspawn, hsys, hfree⟩ := hret
    rw [← hsys, ← hfree] at hspawn
    obtain ⟨res', hexec⟩ := spawn_cases hspawn
    rw [Tracked.spaces_eq (w := w) hfirst]
    rcases execInitrd_cases hexec with ⟨-, hsame, hsame'⟩ | ⟨elf, -, hexec⟩
    · exact .inl (by rw [hsame, hsame', Tracked.spaces])
    · exact .inr (Tracked.moves_of_load (exec_moves hsane hexec))
  | exec core elf =>
    simp only [Event.code, returns_bind, returns_pure, Prod.exists] at hret
    obtain ⟨res, sys₁, F₁, hexec, hsys, hfree⟩ := hret
    rw [← hsys, ← hfree] at hexec
    rw [Tracked.spaces_eq (w := w) hfirst]
    exact .inr (Tracked.moves_of_load (exec_moves hsane hexec))
  | exitCurrent core =>
    rw [Tracked.spaces_eq (w := w) hfirst]
    rcases exitCurrent_moves h.consistent hret with hsame | ⟨r, hcur, hmove⟩
    · exact .inl hsame
    · refine .inr ⟨_, hmove, fun r' hr' => ?_, by simp⟩
      obtain rfl := Move.exit.inj hr'
      exact ⟨core, rfl, hcur⟩
  | continueCurrent core resetTimer =>
    rcases hstep.moves_continueCurrent h with hsame | ⟨r, hmove⟩
    · exact .inl hsame
    · refine .inr ⟨_, hmove, by simp, fun c r' hc => ?_⟩
      obtain ⟨rfl, -⟩ := Move.apply.inj hc
      rfl

theorem TrackedStep.fine (h : w.Fine) (hstep : TrackedStep env w e w') : w'.Fine := by
  obtain ⟨hret, hsound, -⟩ := hstep.1.returns h.sound
  refine ⟨(code_consistent h.consistent hret).1, ?_, hsound⟩
  rcases hstep.moves h with hsame | ⟨move, hmove, -, -⟩
  · exact hsame ▸ h.sane
  · exact hmove.sane h.sane

theorem Tracked.Start.fine (h : w.Start) : w.Fine := by
  refine ⟨consistent_of_idle h.tasks h.idle, ?_, h.sound⟩
  refine ⟨h.inv, h.fresh, ?_, ?_, ?_, ?_, ?_, ?_, ?_, ?_⟩ <;>
    simp [Tracked.spaces, Proc.spaces, h.tasks, h.first, h.inactive]

/-- The user half of the page tables is empty. -/
def UserEmpty (vm : Vm) : Prop := ∀ q : Page, q.IsUser → vm.translate q = none

/-- Runs on one core. -/
abbrev CoreRun (env : Env) (core : ℕ) : Tracked → List Event → Tracked → Prop :=
  Run (Guarded (TrackedStep env) fun _ e => e.core = core)

/-- On a single core the map that is installed stays installed: no other core changes the page
tables, and the core itself never installs a second map, since all maps have the same id. -/
theorem CoreRun.installed {core : ℕ} (hstart : w.Start) (hrun : CoreRun env core w es w') :
    w'.Fine ∧ Installed core w'.spaces := by
  refine hrun.preserves (I := fun w => w.Fine ∧ Installed core w.spaces) ⟨hstart.fine, ?_⟩ ?_
  · refine ⟨?_, ?_, ?_⟩ <;> simp [Tracked.spaces, spaces, hstart.first]
  · rintro w₁ e w₂ ⟨hfine, hinst⟩ ⟨hstep, hcore⟩
    refine ⟨hstep.fine hfine, ?_⟩
    rcases hstep.moves hfine with hsame | ⟨move, hmove, -, happly⟩
    · exact hsame ▸ hinst
    · exact hmove.installed hfine.sane hinst fun c r hc => (happly c r hc).trans hcore

/-- Whatever the user half shows comes from the first task of some core, if it was empty at the
start. This is true for any number of cores. -/
theorem Run.fromFirst {G : Tracked → Event → Prop} (hstart : w.Start) (hempty : UserEmpty w.sys.vm)
    (hrun : Run (Guarded (TrackedStep env) G) w es w') : w'.Fine ∧ FromFirst w'.spaces := by
  refine hrun.preserves (I := fun w => w.Fine ∧ FromFirst w.spaces) ⟨hstart.fine, ?_⟩ ?_
  · intro q t hq ht
    rw [show w.spaces.vm.translate q = none from hempty q hq] at ht
    cases ht
  · rintro w₁ e w₂ ⟨hfine, hfrom⟩ ⟨hstep, -⟩
    refine ⟨hstep.fine hfine, ?_⟩
    rcases hstep.moves hfine with hsame | ⟨move, hmove, -, -⟩
    · exact hsame ▸ hfrom
    · exact hmove.fromFirst hfine.sane hfrom

theorem step_continueCurrent {core : ℕ} {resetTimer : Bool} {out : List LapicWrite × Target}
    {sys sys' : System} {pmm pmm' : PhysicalFrameAllocator}
    (h : (continueCurrent core resetTimer sys).run PhysicalFrameAllocator.pool pmm =
      .ok ((out, sys'), pmm')) :
    Step env ⟨sys, pmm⟩ (.continueCurrent core resetTimer) ⟨sys', pmm'⟩ := by
  simp only [Step, Event.code, run_bind, h]
  rfl

/-- A `continue_current` that goes to user mode, as a step. -/
theorem resume_step (env : Env) {core : ℕ} {resetTimer : Bool} {writes : List LapicWrite}
    {r : TaskRef} {state : TaskProcState} {sys' : System} {pmm' : PhysicalFrameAllocator}
    (hfine : w.Fine)
    (hresume : (continueCurrent core resetTimer w.sys).run PhysicalFrameAllocator.pool w.pmm =
      .ok (((writes, .user r state), sys'), pmm'))
    (hfirst : w.first core = none ∨ w.first core = some r) :
    ∃ w' : Tracked, TrackedStep env w (.continueCurrent core resetTimer) w' ∧ w'.sys = sys' ∧
      w'.pmm = pmm' ∧ w'.first core = some r := by
  -- the task that is resumed is the current one of the core
  have hcur : w.sys.current core = some r := by
    obtain ⟨hret, -, -⟩ := run_returns PhysicalFrameAllocator.freeSet hfine.sound hresume
    obtain ⟨pinfo, hpinfo, ⟨-, htarget, -⟩ | ⟨r', hr', htarget, -⟩⟩ := continueCurrent_cases hret
    · cases htarget
    · obtain ⟨rfl, -⟩ := Target.user.inj htarget
      exact (current_of_procs hpinfo).trans hr'
  refine ⟨⟨⟨sys', pmm'⟩, w.track (.continueCurrent core resetTimer)⟩, ⟨?_, rfl⟩, rfl, rfl, ?_⟩
  · exact step_continueCurrent hresume
  · simp only [Tracked.track]
    rcases hfirst with hnone | hsome
    · rw [if_pos hnone, Function.update_self, hcur]
    · rw [if_neg (by simp [hsome]), hsome]

end Runs

/-! ### Two tasks on one core -/

section TwoTasks

/-- A machine without an initrd. -/
def bareEnv : Env := ⟨fun _ => none, 1, 0⟩

/-- One core, before anything has happened. -/
def boot : Tracked := ⟨⟨bootSystem, freshPmm⟩, fun _ => none⟩

theorem boot_start : boot.Start where
  tasks := rfl
  idle := booted_bootSystem.idle
  inactive c := by
    simp only [boot, bootSystem]
    split_ifs <;> rfl
  first _ := rfl
  sound := freshPmm_sound
  inv := freshVm_inv
  fresh := able_fresh.fresh

theorem boot_empty : UserEmpty boot.sys.vm :=
  fun _ hq => freshVm_translate (not_inArea_of_isUser hq)

/-- Two tasks have been created. -/
def twoLoaded (vm : Vm) (mapA mapB : MemoryMap) : System :=
  System.push (System.push { bootSystem with vm } (.new bareElf.header.entrypoint) mapA)
    (.new bareElf.header.entrypoint) mapB

/-- A tick that obtains all the locks. -/
def tickAll : Event := .tick 0 default ⟨true, fun _ => true⟩

/-- The state of the core. -/
def coreInfo (current : Option TaskRef) (active : Option ℕ) : ProcInfo := ⟨0, current, 1000, active⟩

/-- The first of the two tasks has been picked. -/
def firstPicked (vm : Vm) (mapA mapB : MemoryMap) : System :=
  picked 0 0 (coreInfo none none) 0
    (ticked 0 default (coreInfo none none) (twoLoaded vm mapA mapB))

/-- The map of the first task has been installed. -/
def firstInstalled (vm : Vm) (mapA mapB : MemoryMap) : System :=
  (firstPicked vm mapA mapB).setProc 0 (coreInfo (some 0) (some mapA.id))

/-- The first task has left. -/
def firstExited (vm : Vm) (mapA mapB : MemoryMap) : System :=
  exited 0 (coreInfo (some 0) (some mapA.id)) 0 (firstInstalled vm mapA mapB)

/-- The second task has been picked. -/
def secondPicked (vm : Vm) (mapA mapB : MemoryMap) : System :=
  picked 0 1 (coreInfo none (some mapA.id)) 1
    (ticked 0 default (coreInfo none (some mapA.id)) (firstExited vm mapA mapB))

/-- A map of nothing but a stack. -/
structure Bare (map : MemoryMap) : Prop where
  id : map.id = 0
  wf : ∀ x ∈ map.mappings, x.Wf
  length : map.mappings.length = 128
  stack : ∃ x ∈ map.mappings, x.vadr = USERSTACK_TOP

variable {vm : Vm} {mapA mapB : MemoryMap} {pmm : PhysicalFrameAllocator}
  {G : Tracked → Event → Prop}

theorem step_tick_first :
    Step bareEnv ⟨twoLoaded vm mapA mapB, pmm⟩ tickAll ⟨firstPicked vm mapA mapB, pmm⟩ := by
  rfl

theorem step_tick_second :
    Step bareEnv ⟨firstExited vm mapA mapB, pmm⟩ tickAll ⟨secondPicked vm mapA mapB, pmm⟩ := by
  rfl

/-- Two tasks are created, and the first one is picked. -/
theorem first_picked_run (hG : ∀ w e, e.core = 0 → (∀ c, e ≠ .exitCurrent c) → G w e) :
    ∃ vm mapA mapB pmm,
      Run (Guarded (TrackedStep bareEnv) G) boot [.exec 0 bareElf, .exec 0 bareElf, tickAll]
        ⟨⟨firstPicked vm mapA mapB, pmm⟩, fun _ => none⟩ ∧
      Able vm pmm (2687 + 3 * mapA.mappings.length) ∧ Bare mapA ∧ Bare mapB ∧
      ∀ f ∈ mapA.frames, f ∈ freshPmm.free := by
  have hableA : Able bootSystem.vm freshPmm (3583 + 512) := able_fresh
  obtain ⟨mapA, vmA, pmmA, hexecA, hable₁, hloadA, hlenA, hstackA⟩ :=
    exec_runs (Nat.zero_le 255) (show bareElf.header.phtLen = 0 from rfl) (by decide) hableA
  have hableB : Able (System.push { bootSystem with vm := vmA } (.new bareElf.header.entrypoint)
      mapA).vm pmmA (3071 + 512) := hable₁
  obtain ⟨mapB, vmB, pmmB, hexecB, hable₂, hloadB, hlenB, hstackB⟩ :=
    exec_runs (Nat.zero_le 255) (show bareElf.header.phtLen = 0 from rfl)
      (by change 0 + 1 + 1 < 2 ^ 64; decide) hableB
  refine ⟨vmB, mapA, mapB, pmmB, ?_, by rwa [hlenA], ⟨hloadA.id, hloadA.wf, hlenA, hstackA⟩,
    ⟨hloadB.id, hloadB.wf, hlenB, hstackB⟩, fun f hf => (hloadA.taken f hf).1⟩
  -- two tasks are made, and the first tick picks the older one
  have h₁ : TrackedStep bareEnv boot (.exec 0 bareElf) ⟨⟨_, pmmA⟩, fun _ => none⟩ :=
    ⟨step_exec hexecA, rfl⟩
  have h₂ : TrackedStep bareEnv ⟨⟨_, pmmA⟩, fun _ => none⟩ (.exec 0 bareElf)
      ⟨⟨twoLoaded vmB mapA mapB, pmmB⟩, fun _ => none⟩ := ⟨step_exec hexecB, rfl⟩
  have h₃ : TrackedStep bareEnv ⟨⟨twoLoaded vmB mapA mapB, pmmB⟩, fun _ => none⟩ tickAll
      ⟨⟨firstPicked vmB mapA mapB, pmmB⟩, fun _ => none⟩ := ⟨step_tick_first, rfl⟩
  exact (((Run.nil boot).snoc ⟨h₁, hG _ _ rfl (by simp)⟩).snoc ⟨h₂, hG _ _ rfl (by simp)⟩).snoc
    ⟨h₃, hG _ _ rfl (by simp [tickAll])⟩

/-- The first task is resumed. -/
theorem first_resumes (mapB : MemoryMap) {m : ℕ}
    (hable : Able vm pmm (m + 3 * mapA.mappings.length)) (hA : Bare mapA) :
    ∃ vm' pmm' writes state,
      (continueCurrent 0 false (firstPicked vm mapA mapB)).run PhysicalFrameAllocator.pool pmm =
        .ok (((writes, .user 0 state), firstInstalled vm' mapA mapB), pmm') ∧ Able vm' pmm' m := by
  obtain ⟨vm', pmm', happly, hable'⟩ := applyMappings_runs hable hA.wf
  have hpinfo : (firstPicked vm mapA mapB).procs 0 = some (coreInfo (some 0) none) := rfl
  obtain ⟨writes, hrun⟩ := continueCurrent_installs false hpinfo rfl rfl happly
  exact ⟨vm', pmm', writes, _, hrun, hable'⟩

/-- The first tasks after the first task has been resumed. -/
def firstOnly : ℕ → Option TaskRef := Function.update (fun _ => none) 0 (some 0)

/-- The first task is picked and resumed. -/
theorem first_installed_run (hG : ∀ w e, e.core = 0 → (∀ c, e ≠ .exitCurrent c) → G w e) :
    ∃ vm mapA mapB pmm,
      Run (Guarded (TrackedStep bareEnv) G) boot
        [.exec 0 bareElf, .exec 0 bareElf, tickAll, .continueCurrent 0 false]
        ⟨⟨firstInstalled vm mapA mapB, pmm⟩, firstOnly⟩ ∧
      Able vm pmm 2687 ∧ Bare mapA ∧ Bare mapB ∧ ∀ f ∈ mapA.frames, f ∈ freshPmm.free := by
  obtain ⟨vm₀, mapA, mapB, pmm₀, hrun, hable, hA, hB, hfree⟩ := first_picked_run hG
  obtain ⟨vm, pmm, writes, state, hcont, hable'⟩ := first_resumes mapB hable hA
  exact ⟨vm, mapA, mapB, pmm,
    hrun.snoc ⟨⟨step_continueCurrent hcont, rfl⟩, hG _ _ rfl (by simp)⟩, hable', hA, hB, hfree⟩

/-- In that state a page of the stack shows a frame of the first task, which is none of the
second. -/
theorem first_installed_leaf {es : List Event} (hA : Bare mapA)
    (hrun : CoreRun bareEnv 0 boot es ⟨⟨firstInstalled vm mapA mapB, pmm⟩, firstOnly⟩) :
    ∃ t ∈ mapA.frames, (∃ flags, vm.translate USERSTACK_TOP = some ⟨t, flags⟩) ∧
      t ∉ mapB.frames ∧ t ∈ mapA.owned := by
  obtain ⟨hfine, hinst⟩ := hrun.installed boot_start
  obtain ⟨x, hx, hvadr⟩ := hA.stack
  obtain ⟨m, hm⟩ := MemoryMap.last_eq_some hx
  obtain ⟨hmem, -⟩ := MemoryMap.last_mem hm
  have hframe : m.padr ∈ mapA.frames := List.mem_map_of_mem hmem
  have htasks : ∀ r : TaskRef, r ∈ [0, 1] →
      r ∈ (Tracked.mk ⟨firstInstalled vm mapA mapB, pmm⟩ firstOnly).spaces.tasks := fun _ => id
  rw [hvadr] at hm
  refine ⟨m.padr, hframe, ⟨_, hinst.shows 0 rfl _ m hm⟩, fun hB => ?_, ?_⟩
  · have := hfine.sane.apart 0 (htasks 0 (by simp)) 1 (htasks 1 (by simp)) _ hframe hB
    cases this
  · exact List.mem_map_of_mem (List.mem_filter.mpr ⟨hmem, (hA.wf m hmem).allocated⟩)

/-- The first resume of a task, up to the moment before it runs. -/
theorem first_resume_run :
    ∃ es w t m writes state sys' pmm', CoreRun bareEnv 0 boot es w ∧
      (continueCurrent 0 false w.sys).run PhysicalFrameAllocator.pool w.pmm =
        .ok (((writes, .user 0 state), sys'), pmm') ∧
      w.first 0 = none ∧ sys'.vm.translate USERSTACK_TOP = some t ∧
      (sys'.task 0).memoryMap.last USERSTACK_TOP = some m := by
  obtain ⟨vm₀, mapA, mapB, pmm₀, hrun, hable, hA, -, -⟩ :=
    first_picked_run (G := fun _ e => e.core = 0) fun _ _ hcore _ => hcore
  obtain ⟨vm, pmm, writes, state, hcont, -⟩ := first_resumes mapB hable hA
  -- the stack is mapped, and nothing before has touched the user half
  obtain ⟨x, hx, hvadr⟩ := hA.stack
  obtain ⟨m, hm⟩ := MemoryMap.last_eq_some hx
  rw [hvadr] at hm
  have hstep : TrackedStep bareEnv ⟨⟨firstPicked vm₀ mapA mapB, pmm₀⟩, fun _ => none⟩
      (.continueCurrent 0 false) ⟨⟨firstInstalled vm mapA mapB, pmm⟩, firstOnly⟩ :=
    ⟨step_continueCurrent hcont, rfl⟩
  obtain ⟨-, hinst⟩ := CoreRun.installed boot_start (hrun.snoc ⟨hstep, rfl⟩)
  exact ⟨_, ⟨⟨firstPicked vm₀ mapA mapB, pmm₀⟩, fun _ => none⟩, _, m, writes, state, _, pmm, hrun,
    hcont, rfl, hinst.shows 0 rfl _ m hm, hm⟩

theorem CoreRun.managed {env : Env} {core : ℕ} {w w' : Tracked} {es : List Event} (hstart : w.Start)
    (hrun : CoreRun env core w es w') : w'.pmm.managed = w.pmm.managed := by
  refine (hrun.preserves (I := fun w₁ => w₁.Fine ∧ w₁.pmm.managed = w.pmm.managed)
    ⟨hstart.fine, rfl⟩ ?_).2
  rintro w₁ e w₂ ⟨hfine, hsame⟩ ⟨hstep, -⟩
  exact ⟨hstep.fine hfine, (hstep.1.returns hfine.sound).2.2.trans hsame⟩

/-- The first task exits, and the second one is resumed with the page tables of the first: the page
of the stack shows a frame that is free, and that is none of the frames of the second task. -/
theorem second_task_run :
    ∃ es w t m writes state, CoreRun bareEnv 0 boot es w ∧
      (continueCurrent 0 false w.sys).run PhysicalFrameAllocator.pool w.pmm =
        .ok (((writes, .user 1 state), w.sys), w.pmm) ∧
      w.sys.vm.translate USERSTACK_TOP = some t ∧ t.frame ∈ w.pmm.free ∧
      t.frame ∉ (w.sys.task 1).memoryMap.frames ∧
      (w.sys.task 1).memoryMap.last USERSTACK_TOP = some m := by
  obtain ⟨vm, mapA, mapB, pmm, hrun, hable, hA, hB, hfree⟩ :=
    first_installed_run (G := fun _ e => e.core = 0) fun _ _ hcore _ => hcore
  obtain ⟨t, hframe, ⟨flags, htrans⟩, hnotB, howned⟩ := first_installed_leaf hA hrun
  obtain ⟨hfine, -⟩ := CoreRun.installed boot_start hrun
  -- the exit gives back the frames of the first task
  have hpinfo : (firstInstalled vm mapA mapB).procs 0 =
      some (coreInfo (some 0) (some mapA.id)) := rfl
  obtain ⟨sys', pmm', hexit, -⟩ := run_safe PhysicalFrameAllocator.live hable.sound hable.inSpace
    (exitCurrent_safe hpinfo)
  obtain ⟨hret, -, -⟩ := run_returns PhysicalFrameAllocator.freeSet hable.sound hexit
  have hmanaged : t ∈ pmm.managed := by
    rw [CoreRun.managed boot_start hrun]
    exact PhysicalFrameAllocator.freeSet.free_managed freshPmm_sound (hfree t hframe)
  obtain ⟨hsys, hfreed⟩ : sys' = firstExited vm mapA mapB ∧ t ∈ pmm'.free := by
    obtain ⟨pinfo, hpinfo', hcases⟩ := exitCurrent_of_consistent hfine.consistent hret
    obtain rfl : coreInfo (some 0) (some mapA.id) = pinfo :=
      Option.some.inj (hpinfo.symm.trans hpinfo')
    rcases hcases with ⟨hnone, -, -⟩ | ⟨r, hr, rfl, hfree'⟩
    · cases hnone
    · obtain rfl : 0 = r := Option.some.inj hr
      refine ⟨rfl, ?_⟩
      rw [show pmm'.free = _ from hfree']
      exact .inr ⟨howned, hmanaged⟩
  -- the last two steps: a tick picks the second task, and `apply` finds equal ids
  subst hsys
  have h₅ : TrackedStep bareEnv ⟨⟨firstInstalled vm mapA mapB, pmm⟩, firstOnly⟩ (.exitCurrent 0)
      ⟨⟨firstExited vm mapA mapB, pmm'⟩, firstOnly⟩ := ⟨hexit, rfl⟩
  have h₆ : TrackedStep bareEnv ⟨⟨firstExited vm mapA mapB, pmm'⟩, firstOnly⟩ tickAll
      ⟨⟨secondPicked vm mapA mapB, pmm'⟩, firstOnly⟩ := ⟨step_tick_second, rfl⟩
  have hpinfo₆ : (secondPicked vm mapA mapB).procs 0 =
      some (coreInfo (some 1) (some mapA.id)) := rfl
  have hactive : (coreInfo (some 1) (some mapA.id)).activeMapping =
      some ((secondPicked vm mapA mapB).task 1).memoryMap.id := by
    change some mapA.id = some mapB.id
    rw [hA.id, hB.id]
  obtain ⟨writes, hcont⟩ := continueCurrent_skips pmm' false hpinfo₆ rfl hactive
  -- the second task does have a mapping for that page
  obtain ⟨x, hx, hvadr⟩ := hB.stack
  obtain ⟨m, hm⟩ := MemoryMap.last_eq_some hx
  rw [hvadr] at hm
  exact ⟨_, ⟨⟨secondPicked vm mapA mapB, pmm'⟩, firstOnly⟩, _, m, writes, _,
    (hrun.snoc ⟨h₅, rfl⟩).snoc ⟨h₆, rfl⟩, hcont, htrans, hfreed, hnotB, hm⟩

end TwoTasks

section Runs

variable {env : Env} {w w' : Tracked} {e : Event} {es : List Event}

/-- **The switch is complete for the first task of a core.**  After any run on one core, when
`continue_current` is about to resume the first task that the core ever resumed, the page tables
translate every page of its map by the last mapping of the page. -/
theorem resume_complete {core : ℕ} {resetTimer : Bool} {writes : List LapicWrite} {r : TaskRef}
    {state : TaskProcState} {sys' : System} {pmm' : PhysicalFrameAllocator} (hstart : w.Start)
    (hrun : CoreRun env core w es w')
    (hresume : (continueCurrent core resetTimer w'.sys).run PhysicalFrameAllocator.pool w'.pmm =
      .ok (((writes, .user r state), sys'), pmm'))
    (hfirst : w'.first core = none ∨ w'.first core = some r) :
    ∀ q m, (sys'.task r).memoryMap.last q = some m →
      sys'.vm.translate q = some ⟨m.padr, m.flags ||| .PRESENT⟩ := by
  obtain ⟨hfine, -⟩ := hrun.installed hstart
  obtain ⟨w₂, hstep, rfl, rfl, hr⟩ := resume_step env hfine hresume hfirst
  obtain ⟨-, hinst⟩ := CoreRun.installed hstart (hrun.snoc ⟨hstep, rfl⟩)
  exact hinst.shows r hr

/-- The first task of the run above, at the top page of its stack. -/
theorem resume_complete_first_task :
    ∃ es w writes state sys' pmm' m, boot.Start ∧ CoreRun bareEnv 0 boot es w ∧
      (continueCurrent 0 false w.sys).run PhysicalFrameAllocator.pool w.pmm =
        .ok (((writes, .user 0 state), sys'), pmm') ∧
      w.first 0 = none ∧ (sys'.task 0).memoryMap.last USERSTACK_TOP = some m ∧
      sys'.vm.translate USERSTACK_TOP = some ⟨m.padr, m.flags ||| .PRESENT⟩ := by
  obtain ⟨es, w, t, m, writes, state, sys', pmm', hrun, hcont, hfirst, -, hm⟩ := first_resume_run
  exact ⟨es, w, writes, state, sys', pmm', m, boot_start, hrun, hcont, hfirst, hm,
    resume_complete boot_start hrun hcont (.inl hfirst) _ m hm⟩

/-- The second task is resumed although its stack is not mapped to its frames. -/
theorem second_task_incomplete :
    ∃ es w writes state sys' pmm', boot.Start ∧ CoreRun bareEnv 0 boot es w ∧
      (continueCurrent 0 false w.sys).run PhysicalFrameAllocator.pool w.pmm =
        .ok (((writes, .user 1 state), sys'), pmm') ∧
      ∃ q m, (sys'.task 1).memoryMap.last q = some m ∧
        sys'.vm.translate q ≠ some ⟨m.padr, m.flags ||| .PRESENT⟩ := by
  obtain ⟨es, w, t, m, writes, state, hrun, hcont, htrans, -, hnot, hm⟩ := second_task_run
  refine ⟨es, w, writes, state, w.sys, w.pmm, boot_start, hrun, hcont, USERSTACK_TOP, m, hm, ?_⟩
  intro heq
  obtain rfl := Option.some.inj (htrans.symm.trans heq)
  exact hnot (List.mem_map_of_mem (MemoryMap.last_mem hm).1)

/-- **The first task of a core is isolated.**  From an empty user half, when `continue_current` is
about to resume the first task that the core ever resumed, every leaf of the user half points to a
frame of that task. -/
theorem resume_isolated {core : ℕ} {resetTimer : Bool} {writes : List LapicWrite} {r : TaskRef}
    {state : TaskProcState} {sys' : System} {pmm' : PhysicalFrameAllocator} (hstart : w.Start)
    (hempty : UserEmpty w.sys.vm) (hrun : CoreRun env core w es w')
    (hresume : (continueCurrent core resetTimer w'.sys).run PhysicalFrameAllocator.pool w'.pmm =
      .ok (((writes, .user r state), sys'), pmm'))
    (hfirst : w'.first core = none ∨ w'.first core = some r) :
    ∀ q t, q.IsUser → sys'.vm.translate q = some t → t.frame ∈ (sys'.task r).memoryMap.frames := by
  obtain ⟨hfine, -⟩ := hrun.installed hstart
  obtain ⟨w₂, hstep, rfl, rfl, hr⟩ := resume_step env hfine hresume hfirst
  have hrun₂ := hrun.snoc ⟨hstep, rfl⟩
  obtain ⟨-, hinst⟩ := CoreRun.installed hstart hrun₂
  obtain ⟨-, hfrom⟩ := Run.fromFirst hstart hempty hrun₂
  intro q t hq ht
  obtain ⟨c, r', hc, m, hm, -, hpadr⟩ := hfrom q t hq ht
  -- no other core has resumed a task
  obtain rfl : c = core := by
    by_contra hne
    rw [hinst.only c hne] at hc
    cases hc
  obtain rfl : r = r' := Option.some.inj (hr.symm.trans hc)
  exact hpadr ▸ List.mem_map_of_mem hm

/-- The same resume: the frame that the stack shows is one of the task. -/
theorem resume_isolated_first_task :
    ∃ es w writes state sys' pmm' t, boot.Start ∧ UserEmpty boot.sys.vm ∧
      CoreRun bareEnv 0 boot es w ∧
      (continueCurrent 0 false w.sys).run PhysicalFrameAllocator.pool w.pmm =
        .ok (((writes, .user 0 state), sys'), pmm') ∧
      w.first 0 = none ∧ sys'.vm.translate USERSTACK_TOP = some t ∧
      t.frame ∈ (sys'.task 0).memoryMap.frames := by
  obtain ⟨es, w, t, m, writes, state, sys', pmm', hrun, hcont, hfirst, htrans, -⟩ :=
    first_resume_run
  exact ⟨es, w, writes, state, sys', pmm', t, boot_start, boot_empty, hrun, hcont, hfirst, htrans,
    resume_isolated boot_start boot_empty hrun hcont (.inl hfirst) _ t (by decide) htrans⟩

/-- The second task reaches a frame of the first one. -/
theorem second_task_not_isolated :
    ∃ es w writes state sys' pmm', boot.Start ∧ UserEmpty boot.sys.vm ∧
      CoreRun bareEnv 0 boot es w ∧
      (continueCurrent 0 false w.sys).run PhysicalFrameAllocator.pool w.pmm =
        .ok (((writes, .user 1 state), sys'), pmm') ∧
      ∃ (q : Page) (t : Translation), q.IsUser ∧ sys'.vm.translate q = some t ∧
        t.frame ∉ (sys'.task 1).memoryMap.frames := by
  obtain ⟨es, w, t, m, writes, state, hrun, hcont, htrans, -, hnot, -⟩ := second_task_run
  exact ⟨es, w, writes, state, w.sys, w.pmm, boot_start, boot_empty, hrun, hcont, USERSTACK_TOP, t,
    by decide, htrans, hnot⟩

/-- `exit_current` is not called on the first task that some core has resumed. -/
def KeepsFirst (w : Tracked) (e : Event) : Prop :=
  ∀ core r, e = .exitCurrent core → w.sys.current core = some r → ∀ c, w.first c ≠ some r

theorem Run.firstAlive (hstart : w.Start)
    (hrun : Run (Guarded (TrackedStep env) KeepsFirst) w es w') : FirstAlive w'.spaces := by
  refine (hrun.preserves (I := fun w => w.Fine ∧ FirstAlive w.spaces) ⟨hstart.fine, ?_⟩ ?_).2
  · simp [FirstAlive, Tracked.spaces, spaces, hstart.first]
  · rintro w₁ e w₂ ⟨hfine, halive⟩ ⟨hstep, hkeeps⟩
    refine ⟨hstep.fine hfine, ?_⟩
    rcases hstep.moves hfine with hsame | ⟨move, hmove, hexit, -⟩
    · exact hsame ▸ halive
    · refine hmove.firstAlive halive fun r hr c => ?_
      obtain ⟨core, he, hcur⟩ := hexit r hr
      exact hkeeps core r he hcur c

/-- **No mapping of free memory**, in any state that a run of any cores reaches from an empty user
half, as long as the first tasks of the cores do not exit. `exit_current` gives the frames of a task
back, and leaves its mappings in the tables. -/
theorem no_free_leaf (hstart : w.Start) (hempty : UserEmpty w.sys.vm)
    (hrun : Run (Guarded (TrackedStep env) KeepsFirst) w es w') :
    ∀ q t, q.IsUser → w'.sys.vm.translate q = some t → t.frame ∉ w'.pmm.free := by
  obtain ⟨hfine, hfrom⟩ := Run.fromFirst hstart hempty hrun
  have halive := Run.firstAlive hstart hrun
  exact fun q t hq ht => hfine.sane.not_free hfrom halive hq ht

/-- The same state once more: nobody has left, so the guard has held all along. -/
theorem no_free_leaf_first_task :
    ∃ es w t, boot.Start ∧ UserEmpty boot.sys.vm ∧
      Run (Guarded (TrackedStep bareEnv) KeepsFirst) boot es w ∧
      w.sys.vm.translate USERSTACK_TOP = some t ∧ t.frame ∉ w.pmm.free := by
  obtain ⟨vm, mapA, mapB, pmm, hrun, -, hA, -⟩ :=
    first_installed_run (G := fun w e => e.core = 0 ∧ KeepsFirst w e) fun w e hcore hne =>
      ⟨hcore, fun c _ he => absurd he (hne c)⟩
  have hcore : CoreRun bareEnv 0 boot _ _ := hrun.mono fun _ _ _ h => ⟨h.1, h.2.1⟩
  have hkeeps : Run (Guarded (TrackedStep bareEnv) KeepsFirst) boot _ _ :=
    hrun.mono fun _ _ _ h => ⟨h.1, h.2.2⟩
  obtain ⟨f, -, ⟨flags, htrans⟩, -⟩ := first_installed_leaf hA hcore
  exact ⟨_, _, ⟨f, flags⟩, boot_start, boot_empty, hkeeps, htrans,
    no_free_leaf boot_start boot_empty hkeeps USERSTACK_TOP ⟨f, flags⟩ (by decide) htrans⟩

/-- After the exit of the first task its stack is still mapped, to frames that are free. -/
theorem exit_leaves_free_leaf :
    ∃ es w, boot.Start ∧ UserEmpty boot.sys.vm ∧ CoreRun bareEnv 0 boot es w ∧
      ∃ (q : Page) (t : Translation), q.IsUser ∧ w.sys.vm.translate q = some t ∧
        t.frame ∈ w.pmm.free := by
  obtain ⟨es, w, t, m, writes, state, hrun, -, htrans, hfree, -, -⟩ := second_task_run
  exact ⟨es, w, boot_start, boot_empty, hrun, USERSTACK_TOP, t, by decide, htrans, hfree⟩

end Runs

end HeliumOS.Proc
