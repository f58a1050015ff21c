import HeliumOS.Lib.Run
import HeliumOS.Proc.Progress

/-!
# Ownership of Tasks

Which core runs which task, over any number of cores and any interleaving of `tick`, `Spawn` and
`exit_current`, with lock attempts that may fail at any time.

- `Consistent` ties together the list of tasks, their states, the current task of each core and the
  reference counts.  Each part of a step keeps it.
- `scheduler_ownership` is the result about runs: the checks in the closure of `take_if` cannot
  fail.
-/

namespace HeliumOS.Proc

open HeliumOS.Lib HeliumOS.Lib.AllocProg HeliumOS.Mem HeliumOS.Mem.Virt HeliumOS.Elf

/-! ## The invariant -/

/-- The tasks, their states and the cores agree. -/
structure Consistent (sys : System) : Prop where
  nodup : sys.tasks.Nodup
  fresh : ∀ r ∈ sys.tasks, r < sys.nextRef
  ids_le : ∀ r ∈ sys.tasks, (sys.task r).id ≤ sys.idCount
  ids : ∀ r ∈ sys.tasks, ∀ r' ∈ sys.tasks, (sys.task r).id = (sys.task r').id → r = r'
  priority : ∀ r ∈ sys.tasks, (sys.task r).priority = 0
  current : ∀ c r, sys.current c = some r →
    r ∈ sys.tasks ∧ ∃ since, (sys.task r).state = .running since
  unique : ∀ c c' r, sys.current c = some r → sys.current c' = some r → c = c'
  running : ∀ r ∈ sys.tasks, ∀ since, (sys.task r).state = .running since →
    ∃ c, sys.current c = some r
  strong : ∀ c r, sys.current c = some r → (sys.arena r).strong = 2
  strong_idle : ∀ r ∈ sys.tasks, (∀ c, sys.current c ≠ some r) → (sys.arena r).strong = 1

/-- Time has passed since the running tasks were started. -/
def Timed (sys : System) : Prop :=
  ∀ r ∈ sys.tasks, ∀ since, (sys.task r).state = .running since → since < sys.clock

/-- The scheduler finds what it looks at unchanged, but for the clock. -/
structure SameSchedule (sys sys' : System) : Prop where
  tasks : sys'.tasks = sys.tasks
  nextRef : sys'.nextRef = sys.nextRef
  idCount : sys'.idCount = sys.idCount
  current : ∀ c, sys'.current c = sys.current c
  id : ∀ r, (sys'.task r).id = (sys.task r).id
  priority : ∀ r, (sys'.task r).priority = (sys.task r).priority
  state : ∀ r, (sys'.task r).state = (sys.task r).state
  strong : ∀ r, (sys'.arena r).strong = (sys.arena r).strong

section Invariant

variable {sys sys' : System} {core : ℕ} {pinfo : ProcInfo} {r : TaskRef}

/-- The invariant only reads what `SameSchedule` keeps. -/
theorem Consistent.same (h : Consistent sys) (hsame : SameSchedule sys sys') : Consistent sys' := by
  obtain ⟨htasks, hnext, hcount, hcur, hid, hprio, hstate, hstrong⟩ := hsame
  refine ⟨?_, ?_, ?_, ?_, ?_, ?_, ?_, ?_, ?_, ?_⟩
  · rw [htasks]
    exact h.nodup
  · rw [htasks, hnext]
    exact h.fresh
  · simp only [htasks, hcount, hid]
    exact h.ids_le
  · simp only [htasks, hid]
    exact h.ids
  · simp only [htasks, hprio]
    exact h.priority
  · simp only [htasks, hcur, hstate]
    exact h.current
  · simp only [hcur]
    exact h.unique
  · simp only [htasks, hcur, hstate]
    exact h.running
  · simp only [hcur, hstrong]
    exact h.strong
  · simp only [htasks, hcur, hstrong]
    exact h.strong_idle

theorem Timed.same (h : Timed sys) (hsame : SameSchedule sys sys')
    (hclock : sys.clock ≤ sys'.clock) :
    Timed sys' := by
  intro r hr since hs
  rw [hsame.tasks] at hr
  rw [hsame.state] at hs
  exact (h r hr since hs).trans_le hclock

theorem SameSchedule.trans {sys₁ : System} (h : SameSchedule sys sys₁)
    (h' : SameSchedule sys₁ sys') :
    SameSchedule sys sys' where
  tasks := h'.tasks.trans h.tasks
  nextRef := h'.nextRef.trans h.nextRef
  idCount := h'.idCount.trans h.idCount
  current c := (h'.current c).trans (h.current c)
  id r := (h'.id r).trans (h.id r)
  priority r := (h'.priority r).trans (h.priority r)
  state r := (h'.state r).trans (h.state r)
  strong r := (h'.strong r).trans (h.strong r)

theorem current_of_procs (hpinfo : sys.procs core = some pinfo) :
    sys.current core = pinfo.currentTask := by
  simp [System.current, hpinfo]

/-- Changing the record of a core but not its task. -/
theorem current_setProc (hpinfo : sys.procs core = some pinfo) {pinfo' : ProcInfo}
    (hsame : pinfo'.currentTask = pinfo.currentTask) (c : ℕ) :
    (sys.setProc core pinfo').current c = sys.current c := by
  by_cases hc : c = core
  · rw [hc, System.setProc_current_self, hsame, current_of_procs hpinfo]
  · rw [System.setProc_current_of_ne _ _ _ hc]

theorem Consistent.push_task (h : Consistent sys) (procstate : TaskProcState) (map : MemoryMap)
    (hr : r ∈ sys.tasks) : (sys.push procstate map).task r = sys.task r :=
  sys.push_task_of_ne _ _ (Nat.ne_of_lt (h.fresh r hr))

theorem Consistent.push_arena (h : Consistent sys) (procstate : TaskProcState) (map : MemoryMap)
    (hr : r ∈ sys.tasks) : (sys.push procstate map).arena r = sys.arena r :=
  sys.push_arena_of_ne _ _ (Nat.ne_of_lt (h.fresh r hr))

/-- A new task is pending and has a new identifier. It has one reference, that of the list. -/
theorem Consistent.push (h : Consistent sys) (procstate : TaskProcState) (map : MemoryMap) :
    Consistent (sys.push procstate map) where
  nodup := by
    refine h.nodup.append (List.nodup_singleton _) fun r hr hr' => ?_
    obtain rfl := List.mem_singleton.mp hr'
    exact absurd (h.fresh _ hr) (Nat.lt_irrefl _)
  fresh r hr := by
    rcases (sys.mem_push_tasks procstate map).mp hr with hr | rfl
    · exact Nat.lt_succ_of_lt (h.fresh r hr)
    · exact Nat.lt_succ_self _
  ids_le r hr := by
    rcases (sys.mem_push_tasks procstate map).mp hr with hr | rfl
    · rw [h.push_task _ _ hr]
      exact Nat.le_succ_of_le (h.ids_le r hr)
    · rw [System.push_task_self]
      exact le_rfl
  -- the counter is above all identifiers in the list
  ids r hr r' hr' heq := by
    rcases (sys.mem_push_tasks procstate map).mp hr with hr | rfl
    · rcases (sys.mem_push_tasks procstate map).mp hr' with hr' | rfl
      · rw [h.push_task _ _ hr, h.push_task _ _ hr'] at heq
        exact h.ids r hr r' hr' heq
      · rw [h.push_task _ _ hr, System.push_task_self] at heq
        have := h.ids_le r hr
        simp only at heq
        omega
    · rcases (sys.mem_push_tasks procstate map).mp hr' with hr' | rfl
      · rw [h.push_task _ _ hr', System.push_task_self] at heq
        have := h.ids_le r' hr'
        simp only at heq
        omega
      · rfl
  priority r hr := by
    rcases (sys.mem_push_tasks procstate map).mp hr with hr | rfl
    · rw [h.push_task _ _ hr]
      exact h.priority r hr
    · rw [System.push_task_self]
  current c r hc := by
    obtain ⟨hr, hrun⟩ := h.current c r hc
    rw [h.push_task _ _ hr]
    exact ⟨(sys.mem_push_tasks procstate map).mpr (.inl hr), hrun⟩
  unique := h.unique
  running r hr since hs := by
    rcases (sys.mem_push_tasks procstate map).mp hr with hr | rfl
    · rw [h.push_task _ _ hr] at hs
      exact h.running r hr since hs
    · rw [System.push_task_self] at hs
      cases hs
  strong c r hc := by
    rw [h.push_arena _ _ (h.current c r hc).1]
    exact h.strong c r hc
  strong_idle r hr hidle := by
    rcases (sys.mem_push_tasks procstate map).mp hr with hr | rfl
    · rw [h.push_arena _ _ hr]
      exact h.strong_idle r hr hidle
    · rw [System.push_arena_self]

/-- A step that touches one core and one task. -/
structure Touches (sys sys' : System) (core : ℕ) (r : TaskRef) : Prop where
  nextRef : sys'.nextRef = sys.nextRef
  idCount : sys'.idCount = sys.idCount
  clock : sys'.clock = sys.clock
  tasks : sys'.tasks.Sublist sys.tasks
  kept : ∀ r' ∈ sys.tasks, r' ≠ r → r' ∈ sys'.tasks
  id : (sys'.task r).id = (sys.task r).id
  priority : (sys'.task r).priority = (sys.task r).priority
  task : ∀ r', r' ≠ r → sys'.task r' = sys.task r'
  strong : ∀ r', r' ≠ r → (sys'.arena r').strong = (sys.arena r').strong
  current : ∀ c, c ≠ core → sys'.current c = sys.current c

/-- A task that a core runs, one that waits, or one that is gone. -/
inductive Settled (sys : System) (core : ℕ) (r : TaskRef) : Prop where
  | runs {since : ℕ} : r ∈ sys.tasks → sys.current core = some r →
      (sys.task r).state = .running since → (sys.arena r).strong = 2 → Settled sys core r
  | waits : r ∈ sys.tasks → sys.current core = none → (sys.task r).state = .pending →
      (sys.arena r).strong = 1 → Settled sys core r
  | gone : r ∉ sys.tasks → sys.current core = none → Settled sys core r

/-- A core that has a task after the step runs the one that was touched. -/
theorem Settled.of_current {r' : TaskRef} (h : Settled sys core r)
    (hcur : sys.current core = some r') :
    r' = r ∧ r ∈ sys.tasks ∧ (∃ since, (sys.task r).state = .running since) ∧
      (sys.arena r).strong = 2 := by
  cases h with
  | runs hmem hcore hstate hstrong =>
    exact ⟨Option.some.inj (hcur.symm.trans hcore), hmem, ⟨_, hstate⟩, hstrong⟩
  | waits _ hcore =>
    rw [hcore] at hcur
    cases hcur
  | gone _ hcore =>
    rw [hcore] at hcur
    cases hcur

theorem Touches.id_eq (ht : Touches sys sys' core r) (r' : TaskRef) :
    (sys'.task r').id = (sys.task r').id := by
  by_cases hne : r' = r
  · rw [hne, ht.id]
  · rw [ht.task r' hne]

theorem Touches.priority_eq (ht : Touches sys sys' core r) (r' : TaskRef) :
    (sys'.task r').priority = (sys.task r').priority := by
  by_cases hne : r' = r
  · rw [hne, ht.priority]
  · rw [ht.task r' hne]

/-- A core runs the task that was touched if it is the one of the step, and what it ran before
otherwise. -/
theorem Touches.current_cases {c : ℕ} {r' : TaskRef} (ht : Touches sys sys' core r)
    (halone : ∀ c, c ≠ core → sys.current c ≠ some r) (hsettled : Settled sys' core r)
    (hc : sys'.current c = some r') :
    (c = core ∧ r' = r) ∨ (r' ≠ r ∧ c ≠ core ∧ sys.current c = some r') := by
  by_cases heq : c = core
  · subst heq
    exact .inl ⟨rfl, (hsettled.of_current hc).1⟩
  · rw [ht.current c heq] at hc
    exact .inr ⟨fun hr => halone c heq (hr ▸ hc), heq, hc⟩

/-- **A step on a core and a task that no other core has to do with** keeps the invariant, if the
task is settled afterwards: the core runs it with two references, or it waits with one, or it is
gone. The three ways in which the scheduler moves a task (release, pick, exit) are instances. For
every other task and core, all that the invariant speaks of is as before. -/
theorem Consistent.touch (h : Consistent sys) (ht : Touches sys sys' core r)
    (hown : ∀ r', sys.current core = some r' → r' = r)
    (halone : ∀ c, c ≠ core → sys.current c ≠ some r) (hsettled : Settled sys' core r) :
    Consistent sys' where
  nodup := h.nodup.sublist ht.tasks
  fresh r' hr' := by
    rw [ht.nextRef]
    exact h.fresh r' (ht.tasks.subset hr')
  ids_le r' hr' := by
    rw [ht.id_eq, ht.idCount]
    exact h.ids_le r' (ht.tasks.subset hr')
  ids r₁ hr₁ r₂ hr₂ heq := by
    rw [ht.id_eq, ht.id_eq] at heq
    exact h.ids r₁ (ht.tasks.subset hr₁) r₂ (ht.tasks.subset hr₂) heq
  priority r' hr' := by
    rw [ht.priority_eq]
    exact h.priority r' (ht.tasks.subset hr')
  -- the core of the step, which runs the task that was touched, or another one as before
  current c r' hc := by
    rcases ht.current_cases halone hsettled hc with ⟨rfl, rfl⟩ | ⟨hne, -, hold⟩
    · obtain ⟨-, hmem, hstate, -⟩ := hsettled.of_current hc
      exact ⟨hmem, hstate⟩
    · obtain ⟨hmem, hstate⟩ := h.current c r' hold
      rw [ht.task r' hne]
      exact ⟨ht.kept r' hmem hne, hstate⟩
  -- two cores with one task: both are the core of the step, or neither is
  unique c c' r' hc hc' := by
    rcases ht.current_cases halone hsettled hc with ⟨rfl, rfl⟩ | ⟨hne, -, hold⟩
    · rcases ht.current_cases halone hsettled hc' with ⟨rfl, -⟩ | ⟨hne, -, -⟩
      · rfl
      · exact absurd rfl hne
    · rcases ht.current_cases halone hsettled hc' with ⟨-, rfl⟩ | ⟨-, -, hold'⟩
      · exact absurd rfl hne
      · exact h.unique c c' r' hold hold'
  -- a running task was the one that was touched, or it has the core that it had before
  running r' hr' since hs := by
    by_cases hne : r' = r
    · subst hne
      cases hsettled with
      | runs _ hcore => exact ⟨core, hcore⟩
      | waits _ _ hstate => rw [hstate] at hs; cases hs
      | gone hmem => exact absurd hr' hmem
    · rw [ht.task r' hne] at hs
      obtain ⟨c, hc⟩ := h.running r' (ht.tasks.subset hr') since hs
      exact ⟨c, by rw [ht.current c fun heq => hne (hown r' (heq ▸ hc)), hc]⟩
  strong c r' hc := by
    rcases ht.current_cases halone hsettled hc with ⟨rfl, rfl⟩ | ⟨hne, -, hold⟩
    · exact (hsettled.of_current hc).2.2.2
    · rw [ht.strong r' hne]
      exact h.strong c r' hold
  strong_idle r' hr' hidle := by
    by_cases hne : r' = r
    · subst hne
      cases hsettled with
      | runs _ hcore => exact absurd hcore (hidle core)
      | waits _ _ _ hstrong => exact hstrong
      | gone hmem => exact absurd hr' hmem
    · -- no other task has lost or gained a core
      rw [ht.strong r' hne]
      refine h.strong_idle r' (ht.tasks.subset hr') fun c hc => ?_
      by_cases heq : c = core
      · exact hne (hown r' (heq ▸ hc))
      · exact hidle c ((ht.current c heq).trans hc)

theorem Timed.touch (h : Timed sys) (ht : Touches sys sys' core r)
    (hr : ∀ since, (sys'.task r).state = .running since → since < sys.clock) : Timed sys' := by
  intro r' hr' since hs
  rw [ht.clock]
  by_cases hne : r' = r
  · exact hr since (hne ▸ hs)
  · rw [ht.task r' hne] at hs
    exact h r' (ht.tasks.subset hr') since hs

theorem Timed.push (h : Timed sys) (hcons : Consistent sys) (procstate : TaskProcState)
    (map : MemoryMap) : Timed (sys.push procstate map) := by
  intro r hr since hs
  rcases (sys.mem_push_tasks procstate map).mp hr with hr | rfl
  · rw [sys.push_task_of_ne _ _ (Nat.ne_of_lt (hcons.fresh r hr))] at hs
    exact h r hr since hs
  · rw [System.push_task_self] at hs
    cases hs

/-- The current task of a core is nobody else's. -/
theorem Consistent.alone (h : Consistent sys) (hcur : sys.current core = some r) :
    (∀ r', sys.current core = some r' → r' = r) ∧ ∀ c, c ≠ core → sys.current c ≠ some r :=
  ⟨fun _ hr' => Option.some.inj (hr'.symm.trans hcur), fun c hne hc =>
    hne (h.unique c core r hc hcur)⟩

theorem touches_letGo (sys : System) (core : ℕ) (pinfo : ProcInfo) (r : TaskRef) (strong : ℕ) :
    Touches sys ((letGo core pinfo r sys).setStrong r strong) core r where
  nextRef := rfl
  idCount := rfl
  clock := rfl
  tasks := .refl _
  kept _ hr' _ := hr'
  id := by simp [letGo]
  priority := by simp [letGo]
  task r' hne := by simp [letGo, System.setTask_task_of_ne, hne]
  strong r' hne := by simp [letGo, System.setStrong_strong_of_ne, hne]
  current c hne := by simp [letGo, System.setProc_current_of_ne, hne]

/-- The current task of a core is released. -/
theorem Consistent.letGo (h : Consistent sys) (hpinfo : sys.procs core = some pinfo)
    (hcur : pinfo.currentTask = some r) :
    Consistent ((Proc.letGo core pinfo r sys).setStrong r 1) := by
  have hcore : sys.current core = some r := (current_of_procs hpinfo).trans hcur
  obtain ⟨hown, halone⟩ := h.alone hcore
  refine h.touch (touches_letGo sys core pinfo r 1) hown halone
    (.waits (h.current core r hcore).1 ?_ ?_ ?_)
  · simp [Proc.letGo]
  · simp [Proc.letGo]
  · simp

/-- The state after a core has picked a task. -/
def picked (core clock : ℕ) (pinfo : ProcInfo) (r : TaskRef) (sys : System) : System :=
  ((sys.setTask r { sys.task r with state := .running clock }).arcClone r).setProc core
    { pinfo with currentTask := some r }

theorem touches_picked (sys : System) (core clock : ℕ) (pinfo : ProcInfo) (r : TaskRef) :
    Touches sys (picked core clock pinfo r sys) core r where
  nextRef := rfl
  idCount := rfl
  clock := rfl
  tasks := .refl _
  kept _ hr' _ := hr'
  id := by simp [picked, System.arcClone]
  priority := by simp [picked, System.arcClone]
  task r' hne := by simp [picked, System.arcClone, System.setTask_task_of_ne, hne]
  strong r' hne := by simp [picked, System.arcClone, System.setStrong_strong_of_ne, hne]
  current c hne := by simp [picked, System.arcClone, System.setProc_current_of_ne, hne]

/-- A core picks a pending task. -/
theorem Consistent.picked (h : Consistent sys) (hpinfo : sys.procs core = some pinfo)
    (hcur : pinfo.currentTask = none) (hr : r ∈ sys.tasks)
    (hpending : (sys.task r).state = .pending) (clock : ℕ) :
    Consistent (Proc.picked core clock pinfo r sys) := by
  have hcore : sys.current core = none := (current_of_procs hpinfo).trans hcur
  have hnobody : ∀ c, sys.current c ≠ some r := fun c hc => by
    obtain ⟨-, since, hs⟩ := h.current c r hc
    rw [hpending] at hs
    cases hs
  have hstate : ((Proc.picked core clock pinfo r sys).task r).state = .running clock := by
    simp [Proc.picked, System.arcClone]
  refine h.touch (touches_picked sys core clock pinfo r) (by simp [hcore]) (fun c _ => hnobody c)
    (.runs hr ?_ hstate ?_)
  · simp [Proc.picked]
  · simp [Proc.picked, System.arcClone, h.strong_idle r hr hnobody]

/-- The state after the current task of a core has left. -/
def exited (core : ℕ) (pinfo : ProcInfo) (r : TaskRef) (sys : System) : System :=
  System.setStrong { sys.setProc core { pinfo with currentTask := none } with
    tasks := sys.tasks.erase r } r 0

theorem touches_exited (sys : System) (core : ℕ) (pinfo : ProcInfo) (r : TaskRef) :
    Touches sys (exited core pinfo r sys) core r where
  nextRef := rfl
  idCount := rfl
  clock := rfl
  tasks := List.erase_sublist
  kept r' hr' hne := (List.mem_erase_of_ne hne).mpr hr'
  id := by rw [exited, System.setStrong_task]; rfl
  priority := by rw [exited, System.setStrong_task]; rfl
  task r' _ := by rw [exited, System.setStrong_task]; rfl
  strong r' hne := System.setStrong_strong_of_ne _ _ _ hne
  current c hne := System.setProc_current_of_ne sys core _ hne

/-- A task leaves the list together with the core that ran it. -/
theorem Consistent.exited (h : Consistent sys) (hpinfo : sys.procs core = some pinfo)
    (hcur : pinfo.currentTask = some r) : Consistent (Proc.exited core pinfo r sys) := by
  have hcore : sys.current core = some r := (current_of_procs hpinfo).trans hcur
  obtain ⟨hown, halone⟩ := h.alone hcore
  refine h.touch (touches_exited sys core pinfo r) hown halone (.gone h.nodup.not_mem_erase ?_)
  exact System.setProc_current_self sys core _

end Invariant

/-! ## What the steps do to consistent states -/

section Steps

variable {M F F' : Set PhysFrame} {sys sys' : System} {env : Env} {core : ℕ} {pinfo : ProcInfo}
  {r : TaskRef}

theorem SameSchedule.vm (sys : System) (vm : Vm) : SameSchedule sys { sys with vm } :=
  ⟨rfl, rfl, rfl, fun _ => rfl, fun _ => rfl, fun _ => rfl, fun _ => rfl, fun _ => rfl⟩

/-- The record of a core changes, but not its task. -/
theorem SameSchedule.setProc (hpinfo : sys.procs core = some pinfo) {pinfo' : ProcInfo}
    (hsame : pinfo'.currentTask = pinfo.currentTask) :
    SameSchedule sys (sys.setProc core pinfo') :=
  ⟨rfl, rfl, rfl, current_setProc hpinfo hsame, fun _ => rfl, fun _ => rfl, fun _ => rfl,
    fun _ => rfl⟩

/-- Saving registers and counting time. -/
theorem SameSchedule.ticked (hpinfo : sys.procs core = some pinfo) (procState : TaskProcState) :
    SameSchedule sys (Proc.ticked core procState pinfo sys) := by
  have hcur : ∀ c, (sys.setProc core { pinfo with tickMiss := 0 }).current c = sys.current c :=
    current_setProc hpinfo rfl
  unfold Proc.ticked saveState
  -- with a current task its state is saved, which the scheduler does not look at
  split
  · next r hr =>
    refine ⟨rfl, rfl, rfl, hcur, ?_, ?_, ?_, fun r' => ?_⟩
    iterate 3
      intro r'
      by_cases hr' : r' = r
      · rw [hr', System.setTask_task_self]
        rfl
      · rw [System.setTask_task_of_ne _ _ _ hr']
        rfl
    rw [System.setTask_strong]
    rfl
  · exact ⟨rfl, rfl, rfl, hcur, fun _ => rfl, fun _ => rfl, fun _ => rfl, fun _ => rfl⟩

theorem clock_ticked_mod (procState : TaskProcState) :
    (ticked core procState pinfo sys).clock = (sys.clock + 1) % 2 ^ 64 := by
  unfold ticked saveState
  split <;> rfl

theorem clock_ticked (procState : TaskProcState) (hclock : sys.clock + 1 < 2 ^ 64) :
    (ticked core procState pinfo sys).clock = sys.clock + 1 := by
  rw [clock_ticked_mod, Nat.mod_eq_of_lt hclock]

/-- A task that is released keeps the reference of the list, so nothing is dropped. -/
theorem releaseExpired_of_consistent (h : Consistent sys)
    (hrelease : Returns M (releaseExpired env core sys) F sys' F') :
    F' = F ∧ ∃ pinfo, sys.procs core = some pinfo ∧
      (sys' = sys ∨ ∃ r, pinfo.currentTask = some r ∧
        sys' = (letGo core pinfo r sys).setStrong r 1) := by
  obtain ⟨pinfo, hpinfo, ⟨rfl, rfl, -⟩ | ⟨r, hr, -, hdrop⟩⟩ := releaseExpired_cases hrelease
  · exact ⟨rfl, pinfo, hpinfo, .inl rfl⟩
  · obtain ⟨rfl, rfl⟩ := returns_arcDrop.mp hdrop
    have hstrong : ((letGo core pinfo r sys).arena r).strong = 2 := by
      rw [letGo, System.setTask_strong]
      exact h.strong core r ((current_of_procs hpinfo).trans hr)
    refine ⟨by simp [released, hstrong], pinfo, hpinfo, .inr ⟨r, hr, ?_⟩⟩
    rw [hstrong]

/-- The selected guard is the task at the selected index. -/
theorem pickTask_of_consistent {clock : ℕ} {locks : Locks} (h : Consistent sys)
    (hpick : pickTask core clock locks sys = .ok sys') :
    ∃ pinfo, sys.procs core = some pinfo ∧
      (sys' = sys ∨ ∃ r ∈ sys.tasks, pinfo.currentTask = none ∧ (sys.task r).state = .pending ∧
        sys' = picked core clock pinfo r sys) := by
  obtain ⟨pinfo, hpinfo, ⟨rfl, -⟩ | ⟨index, guard, hnone, hsel, rfl⟩⟩ := pickTask_cases hpick
  · exact ⟨pinfo, hpinfo, .inl rfl⟩
  · rcases selectFrom_eq_some h.priority hsel with hbest | ⟨k, hk, hindex, hpending⟩
    · cases hbest
    · obtain rfl : index = k := by omega
      have hget : sys.tasks.getD index guard = guard := by
        rw [List.getD_eq_getElem?_getD, hk, Option.getD_some]
      rw [hget]
      exact ⟨pinfo, hpinfo, .inr ⟨guard, List.mem_of_getElem? hk, hnone, hpending, rfl⟩⟩

/-- `exit_current` drops both references to the task, and with the second one its frames. -/
theorem exitCurrent_of_consistent (h : Consistent sys)
    (hexit : Returns M (exitCurrent core sys) F sys' F') :
    ∃ pinfo, sys.procs core = some pinfo ∧
      ((pinfo.currentTask = none ∧ sys' = sys ∧ F' = F) ∨
        ∃ r, pinfo.currentTask = some r ∧ sys' = exited core pinfo r sys ∧
          F' = F ∪ {f | f ∈ ((sys.task r).memoryMap.mappings.filter MemoryMapping.allocated).map
            MemoryMapping.padr} ∩ M) := by
  obtain ⟨pinfo, hpinfo, hnone | ⟨r, hr, hcases⟩⟩ := exitCurrent_cases hexit
  · exact ⟨pinfo, hpinfo, .inl hnone⟩
  · have hcore : sys.current core = some r := (current_of_procs hpinfo).trans hr
    have hmem := (h.current core r hcore).1
    refine ⟨pinfo, hpinfo, .inr ⟨r, hr, ?_⟩⟩
    rcases hcases with ⟨hfind, -⟩ | ⟨index, sys₁, F₁, hfind, hdrop₁, hdrop₂⟩
    · have hne := List.findIdx?_eq_none_iff.mp hfind r hmem
      simp at hne
    · obtain ⟨hlt, hid, -⟩ := List.findIdx?_eq_some_iff_getElem.mp hfind
      -- identifiers are unique, so the task that is found is the one that leaves
      have hfound : sys.tasks[index] = r :=
        h.ids _ (List.getElem_mem hlt) r hmem (by simpa using hid)
      have hget : sys.tasks.getD index r = r := by
        rw [List.getD_eq_getElem?_getD, List.getElem?_eq_getElem hlt, hfound, Option.getD_some]
      have herase : sys.tasks.eraseIdx index = sys.tasks.erase r := by
        rw [← h.nodup.erase_getElem index hlt, hfound]
      rw [hget, herase] at hdrop₁
      have hstrong : (sys.arena r).strong = 2 := h.strong core r hcore
      obtain ⟨rfl, rfl⟩ := returns_arcDrop.mp hdrop₁
      obtain ⟨rfl, rfl⟩ := returns_arcDrop.mp hdrop₂
      simp only [released, System.setStrong_strong_self, System.setProc_arena, hstrong,
        System.setStrong_task]
      exact ⟨by simp [exited, System.setStrong], by simp [System.task]⟩

end Steps

/-! ## Each step keeps the invariant -/

section Preservation

variable {M F F' : Set PhysFrame} {sys sys' : System} {env : Env} {core : ℕ}

theorem exec_consistent {elf : ElfFile} {res : ExecResult} (h : Consistent sys)
    (hexec : Returns M (exec core elf sys) F (res, sys') F') :
    Consistent sys' ∧ sys'.clock = sys.clock ∧ (Timed sys → Timed sys') := by
  obtain ⟨vm, hcases⟩ := exec_cases hexec
  have hvm : Consistent { sys with vm } := h.same (.vm sys vm)
  rcases hcases with ⟨-, rfl⟩ | ⟨procstate, map, rfl⟩
  · exact ⟨hvm, rfl, fun ht => ht.same (.vm sys vm) le_rfl⟩
  · exact ⟨hvm.push procstate map, rfl, fun ht =>
      Timed.push (ht.same (.vm sys vm) le_rfl) hvm procstate map⟩

theorem spawn_consistent {path : String} {res : SpawnResult} (h : Consistent sys)
    (hspawn : Returns M (spawn env core path sys) F (res, sys') F') :
    Consistent sys' ∧ sys'.clock = sys.clock ∧ (Timed sys → Timed sys') := by
  obtain ⟨res', hexec⟩ := spawn_cases hspawn
  rcases execInitrd_cases hexec with ⟨-, rfl, -⟩ | ⟨elf, -, hexec⟩
  · exact ⟨h, rfl, id⟩
  · exact exec_consistent h hexec

theorem tickBegin_consistent {procState : TaskProcState} (h : Consistent sys)
    (hbegin : Returns M (tickBegin env core procState sys) F sys' F') :
    Consistent sys' ∧
      (sys.clock + 1 < 2 ^ 64 → sys'.clock = sys.clock + 1 ∧ (Timed sys → Timed sys')) := by
  obtain ⟨pinfo, hpinfo, hcases⟩ := tickBegin_cases hbegin
  have hsame := SameSchedule.ticked hpinfo procState
  have htimed : sys.clock + 1 < 2 ^ 64 → Timed sys → Timed (ticked core procState pinfo sys) :=
    fun hclock ht => ht.same hsame ((Nat.le_succ _).trans (clock_ticked procState hclock).ge)
  rcases hcases with ⟨-, rfl, -⟩ | ⟨-, elf, id, -, hexec⟩
  · exact ⟨h.same hsame, fun hclock => ⟨clock_ticked procState hclock, htimed hclock⟩⟩
  · obtain ⟨h', hclock', ht'⟩ := exec_consistent (h.same hsame) hexec
    exact ⟨h', fun hclock => ⟨hclock'.trans (clock_ticked procState hclock), fun ht =>
      ht' (htimed hclock ht)⟩⟩

theorem releaseExpired_consistent (h : Consistent sys)
    (hrelease : Returns M (releaseExpired env core sys) F sys' F') :
    Consistent sys' ∧ sys'.clock = sys.clock ∧ (Timed sys → Timed sys') := by
  obtain ⟨-, pinfo, hpinfo, rfl | ⟨r, hr, rfl⟩⟩ := releaseExpired_of_consistent h hrelease
  · exact ⟨h, rfl, id⟩
  · refine ⟨h.letGo hpinfo hr, rfl, fun ht => ht.touch (touches_letGo sys core pinfo r 1) ?_⟩
    simp [letGo]

/-- The third part: a core without a task picks a pending one, and starts it at a time in the past.
-/
theorem pickTask_consistent {clock : ℕ} {locks : Locks} (h : Consistent sys)
    (hpick : pickTask core clock locks sys = .ok sys') :
    Consistent sys' ∧ sys'.clock = sys.clock ∧ (clock < sys.clock → Timed sys → Timed sys') := by
  obtain ⟨pinfo, hpinfo, rfl | ⟨r, hr, hnone, hpending, rfl⟩⟩ := pickTask_of_consistent h hpick
  · exact ⟨h, rfl, fun _ => id⟩
  · refine ⟨h.picked hpinfo hnone hr hpending clock, rfl, fun hclock ht => ?_⟩
    refine ht.touch (touches_picked sys core clock pinfo r) fun since hs => ?_
    obtain rfl : clock = since := by simpa [picked, System.arcClone] using hs
    exact hclock

theorem tick_consistent {procState : TaskProcState} {locks : Locks} (h : Consistent sys)
    (htick : Returns M (tick env core procState locks sys) F sys' F') :
    Consistent sys' ∧
      (sys.clock + 1 < 2 ^ 64 → sys'.clock ≤ sys.clock + 1 ∧ (Timed sys → Timed sys')) := by
  obtain ⟨pinfo, hpinfo, ⟨-, -, rfl⟩ | ⟨-, sys₁, F₁, sys₂, hbegin, hrelease, hpick⟩⟩ :=
    tick_cases htick
  · have hsame : SameSchedule sys
        (sys.setProc core { pinfo with tickMiss := pinfo.tickMiss + 1 }) :=
      .setProc hpinfo rfl
    exact ⟨h.same hsame, fun _ => ⟨Nat.le_succ _, fun ht => ht.same hsame le_rfl⟩⟩
  · obtain ⟨h₁, htime₁⟩ := tickBegin_consistent h hbegin
    obtain ⟨h₂, hclock₂, ht₂⟩ := releaseExpired_consistent h₁ hrelease
    obtain ⟨h₃, hclock₃, ht₃⟩ := pickTask_consistent h₂ hpick
    refine ⟨h₃, fun hclock => ?_⟩
    obtain ⟨hclock₁, ht₁⟩ := htime₁ hclock
    -- the clock that was sampled is one behind by now
    exact ⟨by omega, fun ht => ht₃ (by omega) (ht₂ (ht₁ ht))⟩

theorem exitCurrent_consistent (h : Consistent sys)
    (hexit : Returns M (exitCurrent core sys) F sys' F') :
    Consistent sys' ∧ sys'.clock = sys.clock ∧ (Timed sys → Timed sys') := by
  obtain ⟨pinfo, hpinfo, ⟨-, rfl, -⟩ | ⟨r, hr, rfl, -⟩⟩ := exitCurrent_of_consistent h hexit
  · exact ⟨h, rfl, id⟩
  · refine ⟨h.exited hpinfo hr, rfl, fun ht => ht.touch (touches_exited sys core pinfo r) ?_⟩
    intro since hs
    rw [exited, System.setStrong_task] at hs
    exact ht r (h.current core r ((current_of_procs hpinfo).trans hr)).1 since hs

theorem continueCurrent_consistent {resetTimer : Bool} {out : List LapicWrite × Target}
    (h : Consistent sys)
    (hcont : Returns M (continueCurrent core resetTimer sys) F (out, sys') F') :
    Consistent sys' ∧ sys'.clock = sys.clock ∧ (Timed sys → Timed sys') := by
  obtain ⟨pinfo, hpinfo, ⟨-, -, rfl, -⟩ | ⟨r, -, -, happly⟩⟩ := continueCurrent_cases hcont
  · exact ⟨h, rfl, id⟩
  · obtain ⟨pinfo', hpinfo', ⟨-, rfl, -⟩ | ⟨-, vm, -, rfl⟩⟩ := apply_cases happly
    · exact ⟨h, rfl, id⟩
    · have hvm : SameSchedule sys { sys with vm } := .vm sys vm
      have hpinfo₁ : System.procs { sys with vm } core = some pinfo' := hpinfo'
      exact ⟨(h.same hvm).same (.setProc hpinfo₁ rfl), rfl, fun ht =>
        (ht.same hvm le_rfl).same (.setProc hpinfo₁ rfl) le_rfl⟩

end Preservation

/-! ## Runs of many cores -/

/-- What the cores share. -/
structure World where
  sys : System
  pmm : PhysicalFrameAllocator

/-- What a core can do.  Each is one step, and the locks that it tries are part of it. -/
inductive Event where
  | tick (core : ℕ) (procState : TaskProcState) (locks : Locks)
  | spawn (core : ℕ) (path : String)
  | exec (core : ℕ) (elf : ElfFile)
  | exitCurrent (core : ℕ)
  | continueCurrent (core : ℕ) (resetTimer : Bool)

namespace Event

/-- The core that makes the step. -/
def core : Event → ℕ
  | tick core _ _ => core
  | spawn core _ => core
  | exec core _ => core
  | exitCurrent core => core
  | continueCurrent core _ => core

/-- The code that runs. -/
def code (env : Env) : Event → System → Kernel System
  | tick core procState locks, sys => Proc.tick env core procState locks sys
  | spawn core path, sys => do
    let (_, sys) ← Proc.spawn env core path sys
    return sys
  | exec core elf, sys => do
    let (_, sys) ← Proc.exec core elf sys
    return sys
  | exitCurrent core, sys => Proc.exitCurrent core sys
  | continueCurrent core resetTimer, sys => do
    let (_, sys) ← Proc.continueCurrent core resetTimer sys
    return sys

end Event

/-- A step that returns. -/
def Step (env : Env) (w : World) (e : Event) (w' : World) : Prop :=
  (e.code env w.sys).run PhysicalFrameAllocator.pool w.pmm = .ok (w'.sys, w'.pmm)

section Runs

variable {env : Env} {w w' : World} {e : Event} {es : List Event}

theorem Step.returns (hsound : w.pmm.Sound) (h : Step env w e w') :
    Returns w.pmm.managed (e.code env w.sys) w.pmm.free w'.sys w'.pmm.free ∧ w'.pmm.Sound ∧
      w'.pmm.managed = w.pmm.managed :=
  run_returns PhysicalFrameAllocator.freeSet hsound h

/-- **Every event keeps the invariant**, and the clock moves by one at most. -/
theorem code_consistent {M F F' : Set PhysFrame} {sys sys' : System} (h : Consistent sys)
    (hcode : Returns M (e.code env sys) F sys' F') :
    Consistent sys' ∧
      (sys.clock + 1 < 2 ^ 64 → sys'.clock ≤ sys.clock + 1 ∧ (Timed sys → Timed sys')) := by
  -- all events but `tick` leave the clock alone
  have hle : ∀ {sys' : System}, Consistent sys' ∧ sys'.clock = sys.clock ∧
      (Timed sys → Timed sys') →
      Consistent sys' ∧
        (sys.clock + 1 < 2 ^ 64 → sys'.clock ≤ sys.clock + 1 ∧ (Timed sys → Timed sys')) :=
    fun ⟨h', heq, ht⟩ => ⟨h', fun _ => ⟨by omega, ht⟩⟩
  cases e with
  | tick core procState locks => exact tick_consistent h hcode
  | spawn core path =>
    simp only [Event.code, returns_bind, returns_pure, Prod.exists] at hcode
    obtain ⟨res, sys₁, F₁, hspawn, rfl, -⟩ := hcode
    exact hle (spawn_consistent h hspawn)
  | exec core elf =>
    simp only [Event.code, returns_bind, returns_pure, Prod.exists] at hcode
    obtain ⟨res, sys₁, F₁, hexec, rfl, -⟩ := hcode
    exact hle (exec_consistent h hexec)
  | exitCurrent core => exact hle (exitCurrent_consistent h hcode)
  | continueCurrent core resetTimer =>
    rw [Event.code, returns_bind] at hcode
    obtain ⟨⟨out, sys₁⟩, F₁, hcont, hcode⟩ := hcode
    obtain ⟨rfl, -⟩ := returns_pure.mp hcode
    exact hle (continueCurrent_consistent h hcont)

/-- The state in which the cores start to take interrupts. -/
structure Booted (w : World) : Prop where
  tasks : w.sys.tasks = []
  clock : w.sys.clock = 0
  idle : ∀ c, w.sys.current c = none
  sound : w.pmm.Sound

/-- Without tasks there is nothing to disagree about. -/
theorem consistent_of_idle {sys : System} (htasks : sys.tasks = [])
    (hidle : ∀ c, sys.current c = none) :
    Consistent sys := by
  refine ⟨?_, ?_, ?_, ?_, ?_, ?_, ?_, ?_, ?_, ?_⟩ <;> simp [htasks, hidle]

/-- Along a run the invariant holds, and the clock counts at most the steps. -/
theorem Run.consistent (hbooted : Booted w) (hrun : Run (Step env) w es w')
    (hlen : es.length < 2 ^ 64) :
    Consistent w'.sys ∧ w'.sys.clock ≤ es.length ∧ Timed w'.sys ∧ w'.pmm.Sound := by
  refine hrun.invariant
    (I := fun n w' => Consistent w'.sys ∧ w'.sys.clock ≤ n ∧ Timed w'.sys ∧ w'.pmm.Sound)
    ⟨consistent_of_idle hbooted.tasks hbooted.idle, hbooted.clock.le, ?_, hbooted.sound⟩ ?_
  · simp [Timed, hbooted.tasks]
  · rintro n w₁ e w₂ hn ⟨h, hclock, htimed, hsound⟩ hstep
    obtain ⟨hcode, hsound', -⟩ := hstep.returns hsound
    obtain ⟨h', htime'⟩ := code_consistent h hcode
    obtain ⟨hclock', htimed'⟩ := htime' (by omega)
    exact ⟨h', by omega, htimed' htimed, hsound'⟩

theorem lifeExpectancy_error {task : Task} {panic : Panic}
    (h : lifeExpectancy env task = .error panic) : panic = .lifeOverflow := by
  unfold lifeExpectancy checkedAdd at h
  split at h
  · rw [except_ok_bind] at h
    unfold checkedMul at h
    split at h
    · cases h
    · cases h
      rfl
  · cases h
    rfl

/-- The checks in the closure of `take_if` pass for the current task of a core. -/
theorem expired_of_consistent {sys : System} {core : ℕ} {r : TaskRef} (h : Consistent sys)
    (htimed : Timed sys) (hcur : sys.current core = some r) :
    expired env sys r ≠ .error .notRunning ∧ expired env sys r ≠ .error .clockUnderflow := by
  obtain ⟨hmem, since, hstate⟩ := h.current core r hcur
  have hsince := htimed r hmem since hstate
  have hsub : checkedSub Panic.clockUnderflow sys.clock since = .ok (sys.clock - since) :=
    checkedSub_eq_ok.mpr ⟨hsince.le, rfl⟩
  simp only [expired, hstate, hsub, except_ok_bind]
  cases hlife : lifeExpectancy env (sys.task r) with
  | ok life => simp
  | error panic =>
    obtain rfl := lifeExpectancy_error hlife
    simp

/-- **Ownership of tasks.**  After any number of steps below `2 ^ 64`, of any cores, identifiers are
unique, the current tasks of the cores are the running ones, no two cores share one, and time has
passed since each was started.  So in the next tick, once the registers are saved and a missing init
is started, neither the `unreachable!` nor the subtraction in the closure of `take_if` panics. -/
theorem scheduler_ownership (hbooted : Booted w) (hrun : Run (Step env) w es w')
    (hlen : es.length < 2 ^ 64) :
    (w'.sys.tasks.map fun r => (w'.sys.task r).id).Nodup ∧
    (∀ c r, w'.sys.current c = some r →
      r ∈ w'.sys.tasks ∧ ∃ since, (w'.sys.task r).state = .running since) ∧
    (∀ c c' r, w'.sys.current c = some r → w'.sys.current c' = some r → c = c') ∧
    (∀ r ∈ w'.sys.tasks, ∀ since, (w'.sys.task r).state = .running since →
      (∃! c, w'.sys.current c = some r) ∧ since < w'.sys.clock) ∧
    (es.length + 1 < 2 ^ 64 → ∀ core procState sys₁ pmm₁ r,
      (tickBegin env core procState w'.sys).run PhysicalFrameAllocator.pool w'.pmm =
        .ok (sys₁, pmm₁) → sys₁.current core = some r →
      expired env sys₁ r ≠ .error .notRunning ∧ expired env sys₁ r ≠ .error .clockUnderflow) := by
  obtain ⟨h, hclock, htimed, hsound⟩ := Run.consistent hbooted hrun hlen
  refine ⟨?_, h.current, h.unique, fun r hr since hs => ?_, ?_⟩
  · exact List.Nodup.map_on (fun r hr r' hr' => h.ids r hr r' hr') h.nodup
  · obtain ⟨c, hc⟩ := h.running r hr since hs
    exact ⟨⟨c, hc, fun c' hc' => h.unique c' c r hc' hc⟩, htimed r hr since hs⟩
  · intro hlen' core procState sys₁ pmm₁ r hbegin hcur
    -- the clock has been moved on before the time slice is looked at
    obtain ⟨hret, -, -⟩ := run_returns PhysicalFrameAllocator.freeSet hsound hbegin
    obtain ⟨h₁, htime₁⟩ := tickBegin_consistent h hret
    exact expired_of_consistent h₁ ((htime₁ (by omega)).2 htimed) hcur

end Runs

/-- One core and no tasks. -/
def bootSystem : System where
  vm := freshVm
  arena _ := ⟨0, ⟨0, 0, default, .new, .pending⟩⟩
  nextRef := 0
  tasks := []
  clock := 0
  idCount := 0
  procs core := if core = 0 then some ⟨0, none, 1000, none⟩ else none

theorem booted_bootSystem : Booted ⟨bootSystem, freshPmm⟩ where
  tasks := rfl
  clock := rfl
  idle c := by
    simp only [System.current, bootSystem]
    split_ifs <;> rfl
  sound := freshPmm_sound

theorem step_exec {env : Env} {sys sys' : System} {pmm pmm' : PhysicalFrameAllocator} {core : ℕ}
    {elf : ElfFile} {res : ExecResult}
    (h : (exec core elf sys).run PhysicalFrameAllocator.pool pmm = .ok ((res, sys'), pmm')) :
    Step env ⟨sys, pmm⟩ (.exec core elf) ⟨sys', pmm'⟩ := by
  simp only [Step, Event.code, run_bind, h]
  rfl

/-- A task is created and picked. -/
theorem scheduler_ownership_first_task :
    ∃ es w', Booted ⟨bootSystem, freshPmm⟩ ∧ es.length < 2 ^ 64 ∧
      Run (Step ⟨fun _ => none, 1, 0⟩) ⟨bootSystem, freshPmm⟩ es w' ∧
      w'.sys.current 0 = some 0 ∧ 0 ∈ w'.sys.tasks ∧ ∃! c, w'.sys.current c = some 0 := by
  have hable : Able bootSystem.vm freshPmm (3583 + 512) := able_fresh
  obtain ⟨map, vm, pmm, hexec, -⟩ :=
    exec_runs (Nat.zero_le 255) (show bareElf.header.phtLen = 0 from rfl) (by decide) hable
  obtain ⟨w', htick, hcur, hstate⟩ : ∃ w' : World, Step ⟨fun _ => none, 1, 0⟩
      ⟨System.push { bootSystem with vm } (.new bareElf.header.entrypoint) map, pmm⟩
      (.tick 0 default ⟨true, fun _ => true⟩) w' ∧ w'.sys.current 0 = some 0 ∧
      (w'.sys.task 0).state = .running 0 := ⟨⟨_, _⟩, by rfl, by rfl, by rfl⟩
  have hrun := ((Run.nil _).snoc (step_exec hexec)).snoc htick
  obtain ⟨-, hcurrent, -, hrunning, -⟩ :=
    scheduler_ownership booted_bootSystem hrun (by decide)
  have hmem := (hcurrent 0 0 hcur).1
  exact ⟨_, w', booted_bootSystem, by decide, hrun, hcur, hmem, (hrunning 0 hmem 0 hstate).1⟩

end HeliumOS.Proc
