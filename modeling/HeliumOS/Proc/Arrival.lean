import HeliumOS.Proc.Interrupts
import HeliumOS.Proc.Selection

/-!
# Tasks Run in the Order of Their Arrival

New tasks are appended to `TASKS`, all of them have priority 0, and the loop of `tick` takes the
first pending task that it can lock.  As long as no lock on a task is refused, this makes the
scheduler a queue:

- `running_first`: the running tasks are an initial segment of `TASKS`, no longer than there are
  cores.
- `task_kept_until_exit`: a core keeps its task until the task exits.  The end of a time slice
  releases a task that the same tick picks again.
- `starves_without_exit`: a task with as many tasks ahead of it as there are cores is not started
  before one of the tasks exits.
-/

namespace HeliumOS.Proc

open HeliumOS.Lib HeliumOS.Lib.AllocProg HeliumOS.Mem HeliumOS.Mem.Virt HeliumOS.Elf

/-! ## Definitions -/

/-- The task is marked as running. -/
def System.Runs (sys : System) (r : TaskRef) : Prop := (sys.task r).state ≠ .pending

/-- The running tasks stand before the pending ones. -/
def InOrder (sys : System) : Prop := sys.tasks.Pairwise fun r r' => sys.Runs r' → sys.Runs r

/-- No lock on a task is refused.  The one on `TASKS` may be. -/
def Event.Unhindered : Event → Prop
  | .tick _ _ locks => ∀ i, locks.write i = true
  | .spawn .. | .exec .. | .exitCurrent .. | .continueCurrent .. => True

/-! ## The first pending task -/

section Pick

variable {sys sys' : System} {core clock : ℕ} {locks : Locks} {r : TaskRef}

/-- Everything before a position runs, and the task at the position is pending. -/
structure FirstPending (sys : System) (i : ℕ) (r : TaskRef) : Prop where
  get : sys.tasks[i]? = some r
  pending : ¬ sys.Runs r
  before : ∀ j r', j < i → sys.tasks[j]? = some r' → sys.Runs r'

/-- There is only one such task. -/
theorem FirstPending.eq {i j : ℕ} {r' : TaskRef} (h : FirstPending sys i r)
    (h' : FirstPending sys j r') : r = r' := by
  rcases Nat.lt_trichotomy i j with hij | rfl | hji
  · exact absurd (h'.before i r hij h.get) h.pending
  · exact Option.some.inj (h.get.symm.trans h'.get)
  · exact absurd (h.before j r' hji h'.get) h'.pending

theorem offers_of_free (hfree : ∀ i, locks.write i = true) {i : ℕ} :
    Offers sys locks i r ↔ sys.tasks[i]? = some r ∧ ¬ sys.Runs r := by
  simp only [Offers, hfree, true_and, System.Runs, not_not]

/-- With every lock free and equal priorities the loop finds the first pending task. -/
theorem select_first (h : Consistent sys) (hfree : ∀ i, locks.write i = true) :
    (selectFrom sys locks sys.tasks 0 none = none ∧ ∀ r ∈ sys.tasks, sys.Runs r) ∨
      ∃ i b, selectFrom sys locks sys.tasks 0 none = some (i, b) ∧ FirstPending sys i b := by
  have hloop := selectFrom_none sys locks sys.tasks 0
  rw [offersFrom_zero] at hloop
  rcases hloop with ⟨hsel, hempty⟩ | ⟨index, first, g, b, hsel, hfirst, hmin, hbest⟩
  · refine .inl ⟨hsel, fun r hr => ?_⟩
    obtain ⟨i, hi⟩ := List.getElem?_of_mem hr
    by_contra hpending
    exact hempty i r ((offers_of_free hfree).mpr ⟨hi, hpending⟩)
  · -- no priority is higher than another, so the best task is the first one
    have heq : (sys.task first).priority = (sys.task b).priority := by
      rw [h.priority first (List.mem_of_getElem? hfirst.1),
        h.priority b (List.mem_of_getElem? hbest.mem.1)]
    obtain rfl : g = index :=
      le_antisymm (hbest.earliest index first hfirst heq) (hmin g b hbest.mem)
    obtain ⟨hget, hpending⟩ := (offers_of_free hfree).mp hbest.mem
    refine .inr ⟨g, b, hsel, hget, hpending, fun j r' hj hget' => ?_⟩
    by_contra hpending'
    exact absurd (hmin j r' ((offers_of_free hfree).mpr ⟨hget', hpending'⟩)) (Nat.not_le.mpr hj)

/-- A core without a task picks the first pending one, if there is one. -/
theorem pickTask_first (h : Consistent sys) (hfree : ∀ i, locks.write i = true)
    (hpick : pickTask core clock locks sys = .ok sys') :
    ∃ pinfo, sys.procs core = some pinfo ∧
      ((sys' = sys ∧ (pinfo.currentTask = none → ∀ r ∈ sys.tasks, sys.Runs r)) ∨
        ∃ i b, pinfo.currentTask = none ∧ FirstPending sys i b ∧
          sys' = picked core clock pinfo b sys) := by
  simp only [pickTask, except_bind_eq_ok, procInfo_eq_ok] at hpick
  obtain ⟨pinfo, hpinfo, hpick⟩ := hpick
  refine ⟨pinfo, hpinfo, ?_⟩
  split at hpick
  -- a core with a task does not look for one
  · next hcur =>
    cases hpick
    exact .inl ⟨rfl, fun hnone => by simp [hnone] at hcur⟩
  · next hnone =>
    rcases select_first h hfree with ⟨hsel, hall⟩ | ⟨i, b, hsel, hfirst⟩
    · rw [hsel] at hpick
      cases hpick
      exact .inl ⟨rfl, fun _ => hall⟩
    · rw [hsel] at hpick
      cases hpick
      have hget : sys.tasks.getD i b = b := by
        rw [List.getD_eq_getElem?_getD, hfirst.get, Option.getD_some]
      refine .inr ⟨i, b, hnone, hfirst, ?_⟩
      change ((sys.setTask b _).arcClone (sys.tasks.getD i b)).setProc core
        { pinfo with currentTask := some (sys.tasks.getD i b) } = _
      rw [hget]
      rfl

theorem runs_picked {pinfo : ProcInfo} {b : TaskRef} :
    (picked core clock pinfo b sys).Runs r ↔ r = b ∨ sys.Runs r := by
  by_cases hr : r = b
  · simp [hr, System.Runs, picked, System.arcClone]
  · simp [hr, System.Runs, picked, System.arcClone, System.setTask_task_of_ne]

theorem runs_letGo {pinfo : ProcInfo} {b : TaskRef} {n : ℕ} :
    ((letGo core pinfo b sys).setStrong b n).Runs r ↔ r ≠ b ∧ sys.Runs r := by
  by_cases hr : r = b
  · simp [hr, System.Runs, letGo]
  · simp [hr, System.Runs, letGo, System.setTask_task_of_ne]

end Pick

/-! ## One step -/

section Order

variable {sys sys' : System} {core clock : ℕ} {pinfo : ProcInfo} {r : TaskRef}

theorem InOrder.congr (h : InOrder sys) (htasks : sys'.tasks = sys.tasks)
    (hruns : ∀ r ∈ sys.tasks, sys'.Runs r ↔ sys.Runs r) : InOrder sys' := by
  rw [InOrder, htasks]
  refine List.Pairwise.imp_of_mem (fun hr hr' himp hrun => ?_) h
  exact (hruns _ hr).mpr (himp ((hruns _ hr').mp hrun))

theorem InOrder.same (h : InOrder sys) (hsame : SameSchedule sys sys') : InOrder sys' :=
  h.congr hsame.tasks fun r _ => by rw [System.Runs, hsame.state, System.Runs]

/-- A new task stands at the end and is pending. -/
theorem InOrder.push (h : InOrder sys) (hcons : Consistent sys) (procstate : TaskProcState)
    (map : MemoryMap) : InOrder (sys.push procstate map) := by
  have hold {r : TaskRef} (hr : r ∈ sys.tasks) : (sys.push procstate map).Runs r ↔ sys.Runs r := by
    rw [System.Runs, hcons.push_task procstate map hr, System.Runs]
  refine List.pairwise_append.mpr ⟨?_, List.pairwise_singleton .., fun r _ r' hr' hrun => ?_⟩
  · exact List.Pairwise.imp_of_mem
      (fun hr hr' himp hrun => (hold hr).mpr (himp ((hold hr').mp hrun))) h
  · obtain rfl := List.mem_singleton.mp hr'
    rw [System.Runs, System.push_task_self] at hrun
    exact absurd rfl hrun

/-- Whoever leaves, the others stay in their order. -/
theorem InOrder.exited (h : InOrder sys) : InOrder (Proc.exited core pinfo r sys) := by
  have hruns (r' : TaskRef) : (Proc.exited core pinfo r sys).Runs r' ↔ sys.Runs r' := by
    rw [System.Runs, Proc.exited, System.setStrong_task]
    rfl
  refine List.Pairwise.imp (fun himp hrun => ?_) (h.sublist (List.erase_sublist (a := r)))
  exact (hruns _).mpr (himp ((hruns _).mp hrun))

/-- The first pending task is started. -/
theorem InOrder.picked {i : ℕ} (h : InOrder sys) (hcons : Consistent sys)
    (hfirst : FirstPending sys i r) : InOrder (Proc.picked core clock pinfo r sys) := by
  have hpairs := List.pairwise_iff_getElem.mp h
  refine List.pairwise_iff_getElem.mpr fun j k hj hk hjk hrun => ?_
  change j < sys.tasks.length at hj
  change k < sys.tasks.length at hk
  refine runs_picked.mpr (.inr ?_)
  rcases runs_picked.mp hrun with heq | hrun
  · -- what stands before the first pending task runs
    change sys.tasks[k] = r at heq
    obtain ⟨hi, hget⟩ := List.getElem?_eq_some_iff.mp hfirst.get
    obtain rfl : k = i := (hcons.nodup.getElem_inj_iff).mp (heq.trans hget.symm)
    exact hfirst.before j _ hjk (List.getElem?_eq_getElem hj)
  · exact hpairs j k hj hk hjk hrun

/-- When the current task of a core has been released, it is the first pending one. -/
theorem InOrder.first_letGo {i n : ℕ} {b : TaskRef} (h : InOrder sys) (hr : sys.Runs r)
    (hmem : r ∈ sys.tasks)
    (hfirst : FirstPending ((letGo core pinfo r sys).setStrong r n) i b) : b = r := by
  obtain ⟨hget, hpending, hbefore⟩ := hfirst
  change sys.tasks[i]? = some b at hget
  by_contra hne
  have hpending' : ¬ sys.Runs b := fun hrun => hpending (runs_letGo.mpr ⟨hne, hrun⟩)
  obtain ⟨j, hj⟩ := List.getElem?_of_mem hmem
  obtain ⟨hjlt, rfl⟩ := List.getElem?_eq_some_iff.mp hj
  obtain ⟨hilt, rfl⟩ := List.getElem?_eq_some_iff.mp hget
  rcases Nat.lt_trichotomy i j with hij | rfl | hji
  · exact hpending' (List.pairwise_iff_getElem.mp h i j hilt hjlt hij hr)
  · exact hne rfl
  · exact (runs_letGo.mp (hbefore j _ hji hj)).1 rfl

end Order

section Step

variable {M F F' : Set PhysFrame} {env : Env} {sys sys' : System} {core : ℕ}

theorem inOrder_exec {elf : ElfFile} {res : ExecResult} (hcons : Consistent sys) (h : InOrder sys)
    (hexec : Returns M (exec core elf sys) F (res, sys') F') : InOrder sys' := by
  obtain ⟨vm, ⟨-, rfl⟩ | ⟨procstate, map, rfl⟩⟩ := exec_cases hexec
  · exact h.same (.vm sys vm)
  · exact (h.same (.vm sys vm)).push (hcons.same (.vm sys vm)) procstate map

theorem inOrder_tickBegin {procState : TaskProcState} (hcons : Consistent sys) (h : InOrder sys)
    (hbegin : Returns M (tickBegin env core procState sys) F sys' F') :
    InOrder sys' ∧ sys'.current core = sys.current core := by
  obtain ⟨pinfo, hpinfo, ⟨-, rfl, -⟩ | ⟨-, elf, id, -, hexec⟩⟩ := tickBegin_cases hbegin
  · have hsame := SameSchedule.ticked hpinfo procState
    exact ⟨h.same hsame, hsame.current core⟩
  · have hsame := SameSchedule.ticked hpinfo procState
    refine ⟨inOrder_exec (hcons.same hsame) (h.same hsame) hexec, ?_⟩
    rw [System.current, procs_exec hexec]
    exact hsame.current core

/-- The end of a tick: the time slice and the selection.  The core keeps the task that it has. -/
theorem inOrder_release_pick {clock : ℕ} {locks : Locks} {sys₁ : System} (hcons : Consistent sys)
    (h : InOrder sys) (hfree : ∀ i, locks.write i = true)
    (hrelease : Returns M (releaseExpired env core sys) F sys₁ F')
    (hpick : pickTask core clock locks sys₁ = .ok sys') :
    InOrder sys' ∧ ∀ r, sys.current core = some r → sys'.current core = some r := by
  have hcons₁ := (releaseExpired_consistent hcons hrelease).1
  obtain ⟨pinfo₁, hpinfo₁, hcases⟩ := pickTask_first hcons₁ hfree hpick
  obtain ⟨-, pinfo, hpinfo, rfl | ⟨r, hr, rfl⟩⟩ := releaseExpired_of_consistent hcons hrelease
  · rcases hcases with ⟨rfl, -⟩ | ⟨i, b, hnone, hfirst, rfl⟩
    · exact ⟨h, fun r hr => hr⟩
    · refine ⟨h.picked hcons hfirst, fun r hr => ?_⟩
      rw [current_of_procs hpinfo₁, hnone] at hr
      cases hr
  · -- the released task is pending, so that one is picked, and it is the first
    have hcur : sys.current core = some r := (current_of_procs hpinfo).trans hr
    obtain ⟨hmem, since, hstate⟩ := hcons.current core r hcur
    have hruns : sys.Runs r := by simp [System.Runs, hstate]
    rcases hcases with ⟨-, hall⟩ | ⟨i, b, -, hfirst, rfl⟩
    · have hidle : pinfo₁.currentTask = none := by
        rw [← current_of_procs hpinfo₁]
        simp [letGo]
      exact absurd rfl (runs_letGo.mp (hall hidle r hmem)).1
    · obtain rfl := h.first_letGo hruns hmem hfirst
      refine ⟨h.congr rfl fun r' _ => ?_, fun r' hr' => ?_⟩
      · rw [runs_picked, runs_letGo]
        by_cases hr' : r' = b
        · simp [hr', hruns]
        · simp [hr']
      · rw [hcur] at hr'
        rw [← hr']
        simp [picked]

/-- A tick that no lock on a task hinders. -/
theorem inOrder_tick {procState : TaskProcState} {locks : Locks} (hcons : Consistent sys)
    (h : InOrder sys) (hfree : ∀ i, locks.write i = true)
    (htick : Returns M (tick env core procState locks sys) F sys' F') :
    InOrder sys' ∧ ∀ r, sys.current core = some r → sys'.current core = some r := by
  obtain ⟨pinfo, hpinfo, ⟨-, -, rfl⟩ | ⟨-, sys₁, F₁, sys₂, hbegin, hrelease, hpick⟩⟩ :=
    tick_cases htick
  · have hsame : SameSchedule sys
        (sys.setProc core { pinfo with tickMiss := pinfo.tickMiss + 1 }) :=
      .setProc hpinfo rfl
    exact ⟨h.same hsame, fun r hr => (hsame.current core).trans hr⟩
  · obtain ⟨h₁, hcur₁⟩ := inOrder_tickBegin hcons h hbegin
    obtain ⟨h', hkeeps⟩ := inOrder_release_pick (tickBegin_consistent hcons hbegin).1 h₁ hfree
      hrelease hpick
    exact ⟨h', fun r hr => hkeeps r (hcur₁.trans hr)⟩

end Step

/-! ## Any event -/

/-- What a step without hindrance leaves as it is. -/
structure Kept (e : Event) (sys sys' : System) : Prop where
  order : InOrder sys'
  current : ∀ c r, e ≠ .exitCurrent c → sys.current c = some r → sys'.current c = some r
  cores : ∀ c, sys'.procs c ≠ none → sys.procs c ≠ none
  tasks : (∀ c, e ≠ .exitCurrent c) → sys.tasks <+: sys'.tasks

section Events

variable {M F F' : Set PhysFrame} {env : Env} {sys sys' : System} {core : ℕ} {e : Event}

theorem tasks_exec {elf : ElfFile} {res : ExecResult}
    (h : Returns M (exec core elf sys) F (res, sys') F') : sys.tasks <+: sys'.tasks := by
  obtain ⟨vm, ⟨-, rfl⟩ | ⟨procstate, map, rfl⟩⟩ := exec_cases h
  · exact List.prefix_rfl
  · exact List.prefix_append ..

theorem tasks_tick {procState : TaskProcState} {locks : Locks} (hcons : Consistent sys)
    (h : Returns M (tick env core procState locks sys) F sys' F') : sys.tasks <+: sys'.tasks := by
  obtain ⟨pinfo, hpinfo, ⟨-, -, rfl⟩ | ⟨-, sys₁, F₁, sys₂, hbegin, hrelease, hpick⟩⟩ := tick_cases h
  · exact List.prefix_rfl
  · have hcons₁ := (tickBegin_consistent hcons hbegin).1
    have hcons₂ := (releaseExpired_consistent hcons₁ hrelease).1
    have hfirst : sys.tasks <+: sys₁.tasks := by
      obtain ⟨pinfo', hpinfo', ⟨-, rfl, -⟩ | ⟨-, elf, id, -, hexec⟩⟩ := tickBegin_cases hbegin
      · rw [(SameSchedule.ticked hpinfo' procState).tasks]
      · rw [← (SameSchedule.ticked hpinfo' procState).tasks]
        exact tasks_exec hexec
    -- neither the release nor the selection touches the list
    have hsecond : sys₂.tasks = sys₁.tasks := by
      obtain ⟨-, pinfo', -, rfl | ⟨r, -, rfl⟩⟩ :=
        releaseExpired_of_consistent hcons₁ hrelease <;> rfl
    have hthird : sys'.tasks = sys₂.tasks := by
      obtain ⟨pinfo', -, rfl | ⟨r, -, -, -, rfl⟩⟩ := pickTask_of_consistent hcons₂ hpick <;> rfl
    rwa [hthird, hsecond]

/-- A step that only adds tasks. -/
theorem Kept.of_procs {sys' : System} (horder : InOrder sys') (hprocs : sys'.procs = sys.procs)
    (htasks : sys.tasks <+: sys'.tasks) : Kept e sys sys' where
  order := horder
  current c r _ hr := by rwa [System.current, hprocs]
  cores c hc := by rwa [← hprocs]
  tasks _ := htasks

/-- A core is known after a step on it only if it was before. -/
theorem OnlyCore.cores {pinfo : ProcInfo} (h : OnlyCore core sys sys')
    (hpinfo : sys.procs core = some pinfo) (c : ℕ) (hc : sys'.procs c ≠ none) :
    sys.procs c ≠ none := by
  by_cases heq : c = core
  · rw [heq, hpinfo]
    exact Option.some_ne_none _
  · rwa [h c heq] at hc

theorem spawn_kept {path : String} {res : SpawnResult} (hcons : Consistent sys) (h : InOrder sys)
    (hspawn : Returns M (spawn env core path sys) F (res, sys') F') : Kept e sys sys' := by
  obtain ⟨res', hexec⟩ := spawn_cases hspawn
  rcases execInitrd_cases hexec with ⟨-, rfl, -⟩ | ⟨elf, -, hexec⟩
  · exact .of_procs h rfl List.prefix_rfl
  · exact .of_procs (inOrder_exec hcons h hexec) (procs_exec hexec) (tasks_exec hexec)

theorem tick_kept {procState : TaskProcState} {locks : Locks} (hcons : Consistent sys)
    (h : InOrder sys) (hfree : ∀ i, locks.write i = true)
    (htick : Returns M (tick env core procState locks sys) F sys' F') :
    Kept (.tick core procState locks) sys sys' := by
  obtain ⟨horder, hkeeps⟩ := inOrder_tick hcons h hfree htick
  have honly := onlyCore_tick htick
  obtain ⟨pinfo, hpinfo, -⟩ := tick_cases htick
  refine ⟨horder, fun c r _ hr => ?_, honly.cores hpinfo, fun _ => tasks_tick hcons htick⟩
  by_cases hc : c = core
  · subst hc
    exact hkeeps r hr
  · rwa [System.current, honly c hc]

theorem exitCurrent_kept (hcons : Consistent sys) (h : InOrder sys)
    (hexit : Returns M (exitCurrent core sys) F sys' F') : Kept (.exitCurrent core) sys sys' := by
  have honly := onlyCore_exitCurrent hexit
  obtain ⟨pinfo, hpinfo, hcases⟩ := exitCurrent_of_consistent hcons hexit
  refine ⟨?_, fun c r hc hr => ?_, honly.cores hpinfo, fun hno => absurd rfl (hno core)⟩
  · rcases hcases with ⟨-, rfl, -⟩ | ⟨r, -, rfl, -⟩
    · exact h
    · exact h.exited
  · rwa [System.current, honly c fun heq => hc (by rw [heq])]

theorem continueCurrent_kept {resetTimer : Bool} {out : List LapicWrite × Target} (h : InOrder sys)
    (hcont : Returns M (continueCurrent core resetTimer sys) F (out, sys') F') :
    Kept e sys sys' := by
  obtain ⟨pinfo, hpinfo, ⟨-, -, rfl, -⟩ | ⟨r, -, -, happly⟩⟩ := continueCurrent_cases hcont
  · exact .of_procs h rfl List.prefix_rfl
  · obtain ⟨pinfo', hpinfo', ⟨-, rfl, -⟩ | ⟨-, vm, -, rfl⟩⟩ := apply_cases happly
    · exact .of_procs h rfl List.prefix_rfl
    · have hvm : SameSchedule sys { sys with vm } := .vm sys vm
      have hpinfo₁ : System.procs { sys with vm } core = some pinfo' := hpinfo'
      have hsame : SameSchedule { sys with vm } (System.setProc { sys with vm } core
        { pinfo' with activeMapping := some (sys.task r).memoryMap.id }) := .setProc hpinfo₁ rfl
      exact ⟨(h.same hvm).same hsame, fun c _ _ hr => (hsame.current c).trans hr,
        (onlyCore_continueCurrent hcont).cores hpinfo, fun _ => List.prefix_rfl⟩

/-- Any event that no lock on a task hinders. -/
theorem code_kept (hcons : Consistent sys) (h : InOrder sys) (hfree : e.Unhindered)
    (hcode : Returns M (e.code env sys) F sys' F') : Kept e sys sys' := by
  cases e with
  | tick core procState locks => exact tick_kept hcons h hfree hcode
  | spawn core path =>
    simp only [Event.code, returns_bind, returns_pure, Prod.exists] at hcode
    obtain ⟨res, sys₁, F₁, hspawn, rfl, -⟩ := hcode
    exact spawn_kept hcons h hspawn
  | exec core elf =>
    simp only [Event.code, returns_bind, returns_pure, Prod.exists] at hcode
    obtain ⟨res, sys₁, F₁, hexec, rfl, -⟩ := hcode
    exact .of_procs (inOrder_exec hcons h hexec) (procs_exec hexec) (tasks_exec hexec)
  | exitCurrent core => exact exitCurrent_kept hcons h hcode
  | continueCurrent core resetTimer =>
    rw [Event.code, returns_bind] at hcode
    obtain ⟨⟨out, sys₁⟩, F₁, hcont, hcode⟩ := hcode
    obtain ⟨rfl, -⟩ := returns_pure.mp hcode
    exact continueCurrent_kept h hcont

end Events

/-! ## Runs -/

/-- Steps that no lock on a task hinders. -/
def FreeStep (env : Env) : World → Event → World → Prop :=
  Guarded (Step env) fun _ e => e.Unhindered

section Runs

variable {env : Env} {w w' w'' : World} {es es' : List Event}

/-- What a run without hindrance keeps: the tasks are in order, and no core has come up. -/
structure Orderly (cores : Set ℕ) (w : World) : Prop where
  consistent : Consistent w.sys
  sound : w.pmm.Sound
  order : InOrder w.sys
  cores : ∀ c, w.sys.procs c ≠ none → c ∈ cores

theorem Orderly.of_booted (cores : Set ℕ) (hbooted : Booted w)
    (hcores : ∀ c, w.sys.procs c ≠ none → c ∈ cores) : Orderly cores w where
  consistent := consistent_of_idle hbooted.tasks hbooted.idle
  sound := hbooted.sound
  order := by
    rw [InOrder, hbooted.tasks]
    exact .nil
  cores := hcores

theorem Orderly.step {cores : Set ℕ} {e : Event} (h : Orderly cores w)
    (hstep : FreeStep env w e w') :
    Orderly cores w' ∧ Kept e w.sys w'.sys := by
  obtain ⟨hcode, hsound, -⟩ := hstep.1.returns h.sound
  have hkept := code_kept h.consistent h.order hstep.2 hcode
  exact ⟨⟨(code_consistent h.consistent hcode).1, hsound, hkept.order, fun c hc =>
    h.cores c (hkept.cores c hc)⟩, hkept⟩

theorem Orderly.run {cores : Set ℕ} (h : Orderly cores w) (hrun : Run (FreeStep env) w es w') :
    Orderly cores w' :=
  hrun.preserves h fun _ _ _ hI hstep => (hI.step hstep).1

/-- Each running task has a core of its own. -/
theorem Orderly.card_le {cores : Finset ℕ} (h : Orderly cores w) {rs : List TaskRef}
    (hsub : rs.Sublist w.sys.tasks) (hruns : ∀ r ∈ rs, w.sys.Runs r) : rs.length ≤ cores.card := by
  have hsubset : rs.toFinset.image some ⊆ cores.image w.sys.current := by
    intro o ho
    obtain ⟨r, hr, rfl⟩ := Finset.mem_image.mp ho
    have hr' := List.mem_toFinset.mp hr
    obtain ⟨since, hstate⟩ : ∃ since, (w.sys.task r).state = .running since := by
      cases hs : (w.sys.task r).state with
      | running since => exact ⟨since, rfl⟩
      | pending => exact absurd hs (hruns r hr')
    obtain ⟨c, hc⟩ := h.consistent.running r (hsub.subset hr') since hstate
    refine Finset.mem_image.mpr ⟨c, h.cores c fun hnone => ?_, hc⟩
    simp [System.current, hnone] at hc
  calc rs.length = rs.toFinset.card :=
        (List.toFinset_card_of_nodup (h.consistent.nodup.sublist hsub)).symm
    _ = (rs.toFinset.image some).card :=
        (Finset.card_image_of_injective _ (Option.some_injective _)).symm
    _ ≤ (cores.image w.sys.current).card := Finset.card_le_card hsubset
    _ ≤ cores.card := Finset.card_image_le

/-- The running tasks are the first ones. -/
theorem Orderly.segment {cores : Finset ℕ} (h : Orderly cores w) :
    ∃ n ≤ cores.card, ∀ i r, w.sys.tasks[i]? = some r → (w.sys.Runs r ↔ i < n) := by
  set n := w.sys.tasks.findIdx fun r => decide ((w.sys.task r).state = .pending) with hn
  have hbefore {i : ℕ} (hi : i < n) (hlt : i < w.sys.tasks.length) : w.sys.Runs w.sys.tasks[i] := by
    simpa [System.Runs] using List.not_of_lt_findIdx hi
  refine ⟨n, ?_, fun i r hget => ?_⟩
  · have hle : n ≤ w.sys.tasks.length := List.findIdx_le_length
    have hlen : (w.sys.tasks.take n).length = n := by simpa using hle
    rw [← hlen]
    refine h.card_le (List.take_sublist ..) fun r hr => ?_
    obtain ⟨i, hi, rfl⟩ := List.mem_take_iff_getElem.mp hr
    exact hbefore (by omega) (by omega)
  · obtain ⟨hlt, rfl⟩ := List.getElem?_eq_some_iff.mp hget
    refine ⟨fun hrun => ?_, fun hi => hbefore hi hlt⟩
    by_contra hle
    have hnlt : n < w.sys.tasks.length := by omega
    have hpending : ¬ w.sys.Runs w.sys.tasks[n] := by
      simpa [System.Runs] using List.findIdx_getElem (w := hnlt)
    rcases Nat.lt_or_eq_of_le (Nat.not_lt.mp hle) with hni | rfl
    · exact hpending (List.pairwise_iff_getElem.mp h.order n i hnlt hlt hni hrun)
    · exact hpending hrun

/-- **The running tasks are an initial segment of `TASKS`**, at most as long as there are cores.
This holds for any number of cores and in every order of ticks, `Spawn`s and exits, as long as no
tick is refused the lock of a task. -/
theorem running_first {cores : Finset ℕ} (hbooted : Booted w)
    (hcores : ∀ c, w.sys.procs c ≠ none → c ∈ cores) (hrun : Run (FreeStep env) w es w') :
    ∃ n ≤ cores.card, ∀ i r, w'.sys.tasks[i]? = some r → (w'.sys.Runs r ↔ i < n) :=
  ((Orderly.of_booted cores hbooted hcores).run hrun).segment

/-- **No task is preempted.**  From any state that is reached without hindrance, a core that has a
task still has it after any number of further steps of all cores, its own ticks included, unless its
own `exit_current` is one of them. -/
theorem task_kept_until_exit {c : ℕ} {r : TaskRef} (hbooted : Booted w)
    (hrun : Run (FreeStep env) w es w')
    (hrun' : Run (Guarded (FreeStep env) fun _ e => e ≠ .exitCurrent c) w' es' w'')
    (hcur : w'.sys.current c = some r) : w''.sys.current c = some r := by
  have horderly := (Orderly.of_booted Set.univ hbooted fun _ _ => trivial).run hrun
  refine (hrun'.preserves (I := fun w => Orderly Set.univ w ∧ w.sys.current c = some r)
    ⟨horderly, hcur⟩ ?_).2
  rintro w₁ e w₂ ⟨h₁, hcur₁⟩ ⟨hstep, hno⟩
  obtain ⟨h₂, hkept⟩ := h₁.step hstep
  exact ⟨h₂, hkept.current c r hno hcur₁⟩

/-- **Starvation.** A task with as many tasks ahead of it as there are cores stays where it is and
pending, and no core has it, over any number of steps in which no lock on a task is refused and no
task exits: time slices do not bring it to a core. -/
theorem starves_without_exit {cores : Finset ℕ} {i : ℕ} {r : TaskRef} (hbooted : Booted w)
    (hcores : ∀ c, w.sys.procs c ≠ none → c ∈ cores) (hrun : Run (FreeStep env) w es w')
    (hrun' : Run (Guarded (FreeStep env) fun _ e => ∀ c, e ≠ .exitCurrent c) w' es' w'')
    (hi : cores.card ≤ i) (hget : w'.sys.tasks[i]? = some r) :
    w''.sys.tasks[i]? = some r ∧ (w''.sys.task r).state = .pending ∧
      ∀ c, w''.sys.current c ≠ some r := by
  have horderly := (Orderly.of_booted cores hbooted hcores).run hrun
  obtain ⟨h, hget''⟩ : Orderly cores w'' ∧ w''.sys.tasks[i]? = some r := by
    refine hrun'.preserves (I := fun w => Orderly cores w ∧ w.sys.tasks[i]? = some r)
      ⟨horderly, hget⟩ ?_
    rintro w₁ e w₂ ⟨h₁, hget₁⟩ ⟨hstep, hno⟩
    obtain ⟨h₂, hkept⟩ := h₁.step hstep
    obtain ⟨hlt, rfl⟩ := List.getElem?_eq_some_iff.mp hget₁
    exact ⟨h₂, List.prefix_iff_getElem?.mp (hkept.tasks hno) i hlt⟩
  obtain ⟨n, hn, hsegment⟩ := h.segment
  have hpending : (w''.sys.task r).state = .pending := by
    by_contra hruns
    have hlt := (hsegment i r hget'').mp hruns
    omega
  refine ⟨hget'', hpending, fun c hc => ?_⟩
  obtain ⟨-, since, hstate⟩ := h.consistent.current c r hc
  rw [hpending] at hstate
  cases hstate

end Runs

/-! ## Two tasks on one core -/

theorem boot_cores (c : ℕ) (hc : boot.sys.procs c ≠ none) : c ∈ ({0} : Finset ℕ) := by
  by_contra hne
  have hne' : c ≠ 0 := by simpa using hne
  exact hc (if_neg hne')

/-- Two tasks are created, and one tick starts the first. -/
theorem first_picked_free : ∃ vm mapA mapB pmm,
    Run (FreeStep bareEnv) boot.toWorld [.exec 0 bareElf, .exec 0 bareElf, tickAll]
      ⟨firstPicked vm mapA mapB, pmm⟩ := by
  obtain ⟨vm, mapA, mapB, pmm, hrun, -⟩ :=
    first_picked_run (G := fun _ _ => True) fun _ _ _ _ => trivial
  refine ⟨vm, mapA, mapB, pmm, (Run.world hrun).guarded_mem.mono fun _ e _ hstep => ⟨hstep.1, ?_⟩⟩
  have hmem := hstep.2
  simp only [List.mem_cons, List.not_mem_nil, or_false] at hmem
  rcases hmem with rfl | rfl | rfl
  · trivial
  · trivial
  · exact fun _ => rfl

/-- One more tick of the core. -/
theorem step_tick_again (vm : Vm) (mapA mapB : MemoryMap) (pmm : PhysicalFrameAllocator) :
    ∃ w, FreeStep bareEnv ⟨firstPicked vm mapA mapB, pmm⟩ tickAll w :=
  ⟨⟨_, _⟩, by rfl, fun _ => rfl⟩

/-- Two tasks on one core: at most the first of them runs. -/
theorem running_first_two : ∃ es w', Booted boot.toWorld ∧
    Run (FreeStep bareEnv) boot.toWorld es w' ∧ w'.sys.tasks = [0, 1] ∧
    ∃ n ≤ 1, ∀ i r, w'.sys.tasks[i]? = some r → (w'.sys.Runs r ↔ i < n) := by
  obtain ⟨vm, mapA, mapB, pmm, hrun⟩ := first_picked_free
  exact ⟨_, _, booted_bootSystem, hrun, rfl, running_first booted_bootSystem boot_cores hrun⟩

/-- One more tick on that core, by which it keeps its task. -/
theorem task_kept_tick : ∃ es w' w'', Booted boot.toWorld ∧
    Run (FreeStep bareEnv) boot.toWorld es w' ∧ FreeStep bareEnv w' tickAll w'' ∧
    w'.sys.current 0 = some 0 ∧ w''.sys.current 0 = some 0 := by
  obtain ⟨vm, mapA, mapB, pmm, hrun⟩ := first_picked_free
  obtain ⟨w'', hstep⟩ := step_tick_again vm mapA mapB pmm
  exact ⟨_, _, w'', booted_bootSystem, hrun, hstep, rfl,
    task_kept_until_exit booted_bootSystem hrun (.single ⟨hstep, by simp [tickAll]⟩) rfl⟩

/-- By the same tick the second task has not been started. -/
theorem starves_second : ∃ es w' w'', Booted boot.toWorld ∧
    Run (FreeStep bareEnv) boot.toWorld es w' ∧ FreeStep bareEnv w' tickAll w'' ∧
    w'.sys.tasks[1]? = some 1 ∧ (w''.sys.task 1).state = .pending := by
  obtain ⟨vm, mapA, mapB, pmm, hrun⟩ := first_picked_free
  obtain ⟨w'', hstep⟩ := step_tick_again vm mapA mapB pmm
  exact ⟨_, _, w'', booted_bootSystem, hrun, hstep, rfl,
    (starves_without_exit (i := 1) booted_bootSystem boot_cores hrun
      (.single ⟨hstep, by simp [tickAll]⟩) (by decide) rfl).2.1⟩

end HeliumOS.Proc
