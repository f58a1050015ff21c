import HeliumOS.Lib.Owners
import HeliumOS.Proc.Locking
import HeliumOS.Proc.Progress

/-!
# Ownership of Tasks between the Locks

What holds at every point of every interleaving.  A core owns its current task; and it owns a task
that it has taken out of its record and not yet marked or removed, or that it has marked and not yet
put there (`State.owner`).

- `Inv` ties together the locks, the owners and the places in the code.
- `Effect` says what a step does to the tasks and their owners, and `step_effect` that there is
  nothing else.
- `interleaved_ownership` is the result about runs.
-/

namespace HeliumOS.Proc.Locking

open HeliumOS.Lib HeliumOS.Mem

/-! ## The invariant -/

/-- The task that a core has in hand besides its current one. -/
def Pc.owned : Pc → Option TaskRef
  | .taken _ r | .releases _ r | .marked _ r | .exits r | .readsId r | .exitWaits r _ | .finds r _ _
  | .compares r _ _ _ | .removes r _ | .erases r _ => some r
  | .outside | .tickWaits | .granted | .saving _ | .saves .. | .counts _ | .upgrades _ | .starts _
  | .checks _ | .measures .. | .continues | .prints _ | .scans .. | .looks .. | .adopted _ | .leaves
  | .spawnWaits | .spawns | .halted | .own .. => none

namespace State

variable (S : State)

/-- The task that a core owns. -/
def owner (c : ℕ) : Option TaskRef := (S.pc c).owned.or (S.current c)

/-- The task is marked as running. -/
def Runs (r : TaskRef) : Prop := (S.task r).state ≠ .pending

/-- What the loop knows about the best task so far. -/
def Best (i : ℕ) (best : Option (ℕ × TaskRef)) : Prop :=
  ∀ j b, best = some (j, b) → j < i ∧ S.tasks[j]? = some b ∧ (S.task b).state = .pending

/-- What a core knows at its place in the code. -/
def Place (c : ℕ) : Prop :=
  match S.pc c with
  | .saving k | .counts k | .upgrades k | .starts k | .checks k => k < S.clock
  | .saves k r | .measures k r => S.current c = some r ∧ k < S.clock
  | .taken k _ | .releases k _ => S.current c = none ∧ k < S.clock
  | .continues => S.current c ≠ none
  | .prints r | .adopted r => S.current c = some r
  | .own r m => S.current c = some r ∧ m ≠ .upgradeable
  | .scans k i best => S.current c = none ∧ k < S.clock ∧ S.Best i best
  | .looks k i best r => S.current c = none ∧ k < S.clock ∧ S.Best i best ∧ S.tasks[i]? = some r
  | .marked index guard => S.current c = none ∧ S.tasks[index]? = some guard
  | .exits _ | .readsId _ => S.current c = none
  | .exitWaits r id => S.current c = none ∧ id = (S.task r).id
  | .finds r id i =>
    S.current c = none ∧ id = (S.task r).id ∧ ∀ j < i, S.tasks[j]? ≠ some r
  | .compares r id i x =>
    S.current c = none ∧ id = (S.task r).id ∧ (∀ j < i, S.tasks[j]? ≠ some r) ∧
      S.tasks[i]? = some x
  | .removes r i | .erases r i => S.current c = none ∧ S.tasks[i]? = some r
  | .outside | .tickWaits | .granted | .leaves | .spawnWaits | .spawns | .halted => True

end State

/-- The running tasks have one owner each, and their fields are as they should be. -/
structure Table (S : State) : Prop where
  owners : Owners S.tasks S.Runs S.owner
  fresh : ∀ r ∈ S.tasks, r < S.nextRef
  ids_le : ∀ r ∈ S.tasks, (S.task r).id ≤ S.idCount
  ids : ∀ r ∈ S.tasks, ∀ r' ∈ S.tasks, (S.task r).id = (S.task r').id → r = r'
  priority : ∀ r ∈ S.tasks, (S.task r).priority = 0
  since : ∀ r ∈ S.tasks, ∀ since, (S.task r).state = .running since → since < S.clock

/-- The locks exclude, the table is in order, and every core is where it should be. -/
structure Inv (S : State) : Prop where
  tasksLock : Excludes S.tasksLock
  taskLock : ∀ r, Excludes (S.taskLock r)
  table : Table S
  places : ∀ c, S.Place c

section Steps

variable {env : Env} {S S' : State} {c : ℕ}

/-! ## Other cores -/

/-- A step is one core's. -/
theorem step_others (h : Step env S c S') {c' : ℕ} (hne : c' ≠ c) :
    S'.pc c' = S.pc c' ∧ S'.current c' = S.current c' := by
  cases h <;>
    simp [State.goto_pc_of_ne, State.setCurrent_current_of_ne, hne, State.setTickMiss, State.count,
      State.setRegisters, State.setState, State.push]

/-! ## Locks -/

/-- How a core comes to hold the lock on `TASKS`. -/
theorem step_tasksLock (h : Step env S c S') (m : LockMode) (hm : S'.tasksLock c m) :
    S.tasksLock c m ∨ Grants S.tasksLock m ∨ Alone S.tasksLock c ∨
      (m = .read ∧ ∃ m₀, S.tasksLock c m₀) := by
  cases h <;> simp_all [State.tasksLock, Pc.tasksGuard, State.setTickMiss, State.count,
    State.setRegisters, State.setState, State.push]

/-- How a core comes to hold the lock on a task. -/
theorem step_taskLock (h : Step env S c S') (r : TaskRef) (m : LockMode) (hm : S'.taskLock r c m) :
    S.taskLock r c m ∨ Grants (S.taskLock r) m := by
  cases h with
  | tries hpc hget hlock =>
    -- the guard of the best task stays, and one more is taken
    simp only [State.taskLock, State.goto_pc_self, Pc.guards, List.mem_cons, Prod.mk.injEq] at hm
    rcases hm with ⟨rfl, rfl⟩ | hm
    · exact .inr hlock
    · exact .inl (by rwa [State.taskLock, hpc])
  | _ =>
    simp_all [State.taskLock, Pc.guards, bestGuard, State.setTickMiss, State.count,
      State.setRegisters, State.setState, State.push]

/-! ## Effects -/

/-- What a step does to the tasks and their owners. Steps that only move the program counter, write
registers or count the clock are `quiet`; the other four are the only ones that change the list, the
mark of a task, or who owns it. -/
inductive Effect (S : State) (c : ℕ) : State → Prop where
  /-- Nothing that counts here. -/
  | quiet {S' : State} (htasks : S'.tasks = S.tasks) (hnext : S'.nextRef = S.nextRef)
      (hcount : S'.idCount = S.idCount) (hclock : S.clock ≤ S'.clock)
      (hid : ∀ r, (S'.task r).id = (S.task r).id)
      (hpriority : ∀ r, (S'.task r).priority = (S.task r).priority)
      (hstate : ∀ r, (S'.task r).state = (S.task r).state) (howner : S'.owner c = S.owner c) :
      Effect S c S'
  /-- A pending task is appended. -/
  | push {pc : Pc} (procstate : TaskProcState) (memoryMap : MemoryMap)
      (hlock : S.tasksLock c .write) (howned : pc.owned = (S.pc c).owned) :
      Effect S c ((S.push procstate memoryMap).goto c pc)
  /-- A task that was taken is marked as pending. -/
  | release {k : ℕ} {r : TaskRef} (hpc : S.pc c = .releases k r) :
      Effect S c ((S.setState r .pending).goto c (.scans k 0 none))
  /-- The best task is marked as running. -/
  | mark {k i index : ℕ} {guard : TaskRef} (hpc : S.pc c = .scans k i (some (index, guard))) :
      Effect S c ((S.setState guard (.running k)).goto c (.marked index guard))
  /-- A task leaves the list. -/
  | erase {index : ℕ} {r : TaskRef} (hpc : S.pc c = .erases r index) :
      Effect S c ({ S with tasks := S.tasks.eraseIdx index }.goto c .outside)

/-- A step that only moves on. -/
theorem Effect.goto {pc : Pc} (howner : pc.owned.or (S.current c) = S.owner c) :
    Effect S c (S.goto c pc) :=
  .quiet rfl rfl rfl le_rfl (fun _ => rfl) (fun _ => rfl) (fun _ => rfl) (by simpa [State.owner])

/-- A step that saves or changes registers. -/
theorem Effect.registers {pc : Pc} {r : TaskRef} {procstate : TaskProcState}
    (howner : pc.owned.or (S.current c) = S.owner c) :
    Effect S c ((S.setRegisters r procstate).goto c pc) := by
  refine .quiet rfl rfl rfl le_rfl ?_ ?_ ?_ (by simpa [State.owner, State.setRegisters])
  all_goals
    intro r'
    by_cases hr : r' = r
    · simp [State.setRegisters, hr]
    · simp [State.setRegisters, State.setTask_task_of_ne hr]

/-- A core that looks for its task in the list does not come to the end. -/
theorem Inv.unseen_lt (h : Inv S) {r : TaskRef} {id i : ℕ} (hpc : S.pc c = .finds r id i) :
    i < S.tasks.length := by
  have hplace := h.places c
  simp only [State.Place, hpc] at hplace
  obtain ⟨-, -, hunseen⟩ := hplace
  have howner : S.owner c = some r := by simp [State.owner, hpc, Pc.owned]
  obtain ⟨j, hj⟩ := List.getElem?_of_mem (h.table.owners.owned c r howner).1
  have hji : i ≤ j := Nat.le_of_not_lt fun hlt => hunseen j hlt hj
  exact hji.trans_lt (List.getElem?_eq_some_iff.mp hj).1

/-- Every step has one of the effects. This is the only case analysis over all steps that looks at
the tasks: the invariants below are proved about effects. -/
theorem step_effect (h : Inv S) (hclock : S.clock + 1 < 2 ^ 64) (hstep : Step env S c S') :
    Effect S c S' := by
  have hplace := h.places c
  cases hstep with
  | tickMisses => exact .quiet rfl rfl rfl le_rfl (fun _ => rfl) (fun _ => rfl) (fun _ => rfl) rfl
  -- the clock does not wrap around within the run
  | counts hpc =>
    refine .quiet rfl rfl rfl ?_ (fun _ => rfl) (fun _ => rfl) (fun _ => rfl) ?_
    · exact (Nat.le_succ _).trans (Nat.mod_eq_of_lt hclock).ge
    · simp [State.owner, hpc, Pc.owned, State.count, State.setTickMiss]
  | saves procstate hpc => exact .registers (by simp [State.owner, hpc, Pc.owned])
  | writes procstate hpc => exact .registers (by simp [State.owner, hpc, Pc.owned])
  | starts memoryMap hpc =>
    exact .push _ memoryMap (by simp [State.tasksLock, hpc, Pc.tasksGuard])
      (by simp [hpc, Pc.owned])
  | spawns procstate memoryMap hpc =>
    exact .push procstate memoryMap (by simp [State.tasksLock, hpc, Pc.tasksGuard])
      (by simp [hpc, Pc.owned])
  -- the task leaves the record of the core for its hands, and its owner stays the same
  | takes hpc =>
    simp only [State.Place, hpc] at hplace
    refine .quiet rfl rfl rfl le_rfl (fun _ => rfl) (fun _ => rfl) (fun _ => rfl) ?_
    simp [State.owner, hpc, Pc.owned, hplace.1]
  | exits hpc hcur =>
    refine .quiet rfl rfl rfl le_rfl (fun _ => rfl) (fun _ => rfl) (fun _ => rfl) ?_
    simp [State.owner, hpc, Pc.owned, hcur]
  | adopts hpc hget =>
    -- the index is that of the guard
    simp only [State.Place, hpc] at hplace
    refine .quiet rfl rfl rfl le_rfl (fun _ => rfl) (fun _ => rfl) (fun _ => rfl) ?_
    rw [hplace.2] at hget
    simp [State.owner, hpc, Pc.owned, hget]
  | releases hpc => exact .release hpc
  | marks hpc => exact .mark hpc
  | erases hpc => exact .erase hpc
  -- `find` cannot come to the end: the task that exits is still in the list
  | misses hpc hend => exact absurd (h.unseen_lt hpc) (Nat.not_lt.mpr hend)
  | _ => exact .goto (by simp_all [State.owner, Pc.owned])

/-! ## The table -/

theorem owner_of_others (hothers : ∀ c' ≠ c, S'.owner c' = S.owner c') {o : Option TaskRef}
    (hself : S'.owner c = o) (c' : ℕ) : S'.owner c' = Function.update S.owner c o c' := by
  by_cases hc : c' = c
  · rw [hc, Function.update_self, hself]
  · rw [Function.update_of_ne hc, hothers c' hc]

/-- Nothing that counts. The table only reads the list, the identifiers, the priorities, the marks
and the owners, and the clock as an upper bound. -/
theorem Table.quiet (h : Table S) (htasks : S'.tasks = S.tasks) (hnext : S'.nextRef = S.nextRef)
    (hcount : S'.idCount = S.idCount) (hclock : S.clock ≤ S'.clock)
    (hid : ∀ r, (S'.task r).id = (S.task r).id)
    (hpriority : ∀ r, (S'.task r).priority = (S.task r).priority)
    (hstate : ∀ r, (S'.task r).state = (S.task r).state) (howner : ∀ c, S'.owner c = S.owner c) :
    Table S' where
  owners := by
    rw [htasks]
    exact h.owners.congr (fun r _ => by rw [State.Runs, hstate, State.Runs]) howner
  fresh r hr := by
    rw [hnext]
    exact h.fresh r (htasks ▸ hr)
  ids_le r hr := by
    rw [hid, hcount]
    exact h.ids_le r (htasks ▸ hr)
  ids r hr r' hr' heq := by
    rw [hid, hid] at heq
    exact h.ids r (htasks ▸ hr) r' (htasks ▸ hr') heq
  priority r hr := by
    rw [hpriority]
    exact h.priority r (htasks ▸ hr)
  since r hr since hs := by
    rw [hstate] at hs
    exact (h.since r (htasks ▸ hr) since hs).trans_le hclock

/-- A new task is pending, and has a new identifier. -/
theorem Table.push (h : Table S) (procstate : TaskProcState) (memoryMap : MemoryMap)
    (htasks : S'.tasks = S.tasks ++ [S.nextRef]) (hnext : S'.nextRef = S.nextRef + 1)
    (hcount : S'.idCount = S.idCount + 1) (hclock : S'.clock = S.clock)
    (htask : S'.task = (S.push procstate memoryMap).task) (howner : ∀ c, S'.owner c = S.owner c) :
    Table S' := by
  -- the new reference is behind all others, so that the old tasks are untouched
  have hnew : S'.task S.nextRef = ⟨S.idCount + 1, 0, procstate, memoryMap, .pending⟩ := by
    rw [htask]
    exact Function.update_self ..
  have hold {r : TaskRef} (hr : r ∈ S.tasks) : S'.task r = S.task r := by
    rw [htask]
    exact Function.update_of_ne (Nat.ne_of_lt (h.fresh r hr)) ..
  have hcases {r : TaskRef} (hr : r ∈ S'.tasks) :
      (r ∈ S.tasks ∧ S'.task r = S.task r) ∨ r = S.nextRef := by
    rw [htasks] at hr
    rcases List.mem_append.mp hr with hr | hr
    · exact .inl ⟨hr, hold hr⟩
    · exact .inr (List.mem_singleton.mp hr)
  have hcongr : Owners S.tasks S'.Runs S'.owner :=
    h.owners.congr (fun r hr => by rw [State.Runs, hold hr, State.Runs]) howner
  refine ⟨?_, fun r hr => ?_, fun r hr => ?_, fun r hr r' hr' heq => ?_, fun r hr => ?_,
    fun r hr since hs => ?_⟩
  · rw [htasks]
    exact hcongr.add (fun hmem => Nat.lt_irrefl _ (h.fresh _ hmem)) (by simp [State.Runs, hnew])
  · rw [hnext]
    rcases hcases hr with ⟨hr, -⟩ | rfl
    · exact Nat.lt_succ_of_lt (h.fresh r hr)
    · exact Nat.lt_succ_self _
  · rw [hcount]
    rcases hcases hr with ⟨hr, htask⟩ | rfl
    · rw [htask]
      exact Nat.le_succ_of_le (h.ids_le r hr)
    · rw [hnew]
  · -- the new identifier is larger than all others
    rcases hcases hr with ⟨hr, htask⟩ | rfl
    · rcases hcases hr' with ⟨hr', htask'⟩ | rfl
      · rw [htask, htask'] at heq
        exact h.ids r hr r' hr' heq
      · rw [htask, hnew] at heq
        exact absurd (h.ids_le r hr) (by rw [heq]; exact Nat.not_succ_le_self _)
    · rcases hcases hr' with ⟨hr', htask'⟩ | rfl
      · rw [htask', hnew] at heq
        exact absurd (h.ids_le r' hr') (by rw [← heq]; exact Nat.not_succ_le_self _)
      · rfl
  · rcases hcases hr with ⟨hr, htask⟩ | rfl
    · rw [htask]
      exact h.priority r hr
    · rw [hnew]
  · rw [hclock]
    rcases hcases hr with ⟨hr, htask⟩ | rfl
    · rw [htask] at hs
      exact h.since r hr since hs
    · rw [hnew] at hs
      cases hs

/-- The state of one task is set. Who owns what afterwards is for the caller to say. -/
theorem Table.setState (h : Table S) {r : TaskRef} {state : TaskState} (htasks : S'.tasks = S.tasks)
    (hnext : S'.nextRef = S.nextRef) (hcount : S'.idCount = S.idCount) (hclock : S'.clock = S.clock)
    (htask : S'.task = (S.setState r state).task)
    (hsince : ∀ since, state = .running since → since < S.clock)
    (howners : Owners S'.tasks S'.Runs S'.owner) : Table S' := by
  -- identifiers and priorities are not touched
  have hid (r' : TaskRef) : (S'.task r').id = (S.task r').id ∧
      (S'.task r').priority = (S.task r').priority := by
    rw [htask]
    by_cases hr : r' = r
    · simp [State.setState, hr]
    · simp [State.setState, State.setTask_task_of_ne hr]
  refine ⟨howners, fun r' hr' => ?_, fun r' hr' => ?_, fun r₁ hr₁ r₂ hr₂ heq => ?_,
    fun r' hr' => ?_, fun r' hr' since hs => ?_⟩
  · rw [hnext]
    exact h.fresh r' (htasks ▸ hr')
  · rw [(hid r').1, hcount]
    exact h.ids_le r' (htasks ▸ hr')
  · rw [(hid r₁).1, (hid r₂).1] at heq
    exact h.ids r₁ (htasks ▸ hr₁) r₂ (htasks ▸ hr₂) heq
  · rw [(hid r').2]
    exact h.priority r' (htasks ▸ hr')
  · rw [hclock]
    rw [htask] at hs
    by_cases hr : r' = r
    · subst hr
      exact hsince since (by simpa [State.setState] using hs)
    · rw [State.setState, State.setTask_task_of_ne hr] at hs
      exact h.since r' (htasks ▸ hr') since hs

theorem runs_setState {r r' : TaskRef} {state : TaskState} :
    (S.setState r state).Runs r' ↔ (r' = r ∧ state ≠ .pending) ∨ (r' ≠ r ∧ S.Runs r') := by
  by_cases hr : r' = r
  · simp [State.Runs, State.setState, hr]
  · simp [State.Runs, State.setState, State.setTask_task_of_ne hr, hr]

/-- **Every effect keeps the table.** The three effects on owners are those of `Owners`: a task is
released, acquired or removed. The core that makes the step knows, from its place in the code, that
the task is its own or that nobody has it. -/
theorem Effect.table (heffect : Effect S c S') (h : Table S) (hplace : S.Place c)
    (hothers : ∀ c' ≠ c, S'.owner c' = S.owner c') : Table S' := by
  cases heffect with
  | quiet htasks hnext hcount hclock hid hpriority hstate howner =>
    refine h.quiet htasks hnext hcount hclock hid hpriority hstate fun c' => ?_
    by_cases hc : c' = c
    · rw [hc, howner]
    · exact hothers c' hc
  | @push pc procstate memoryMap hlock howned =>
    refine h.push procstate memoryMap rfl rfl rfl rfl rfl fun c' => ?_
    by_cases hc : c' = c
    · subst hc
      simp [State.owner, howned, State.push]
    · exact hothers c' hc
  -- the task goes back to the list, and the core has nothing
  | @release k r hpc =>
    simp only [State.Place, hpc] at hplace
    have howner : S.owner c = some r := by simp [State.owner, hpc, Pc.owned]
    have hself : ((S.setState r .pending).goto c (.scans k 0 none)).owner c = none := by
      simp [State.owner, Pc.owned, State.setState, hplace.1]
    refine h.setState rfl rfl rfl rfl rfl (by simp)
      (h.owners.release howner (fun x _ => ?_) (owner_of_others hothers hself))
    exact runs_setState.trans (by simp)
  -- the task behind the guard is pending, so that nobody owns it
  | @mark k i index guard hpc =>
    simp only [State.Place, hpc] at hplace
    obtain ⟨hcur, hk, hbest⟩ := hplace
    obtain ⟨-, hget, hpending⟩ := hbest index guard rfl
    have howner : S.owner c = none := by simp [State.owner, hpc, Pc.owned, hcur]
    have hself : ((S.setState guard (.running k)).goto c (.marked index guard)).owner c =
        some guard := by simp [State.owner, Pc.owned]
    refine h.setState rfl rfl rfl rfl rfl (by rintro since ⟨⟩; exact hk)
      (h.owners.acquire howner (List.mem_of_getElem? hget) (by simp [State.Runs, hpending])
        (fun x _ => ?_) (owner_of_others hothers hself))
    refine runs_setState.trans ?_
    by_cases hx : x = guard
    · simp [hx]
    · simp [hx]
  -- removing by index is removing the task, as no task is in the list twice
  | @erase index r hpc =>
    simp only [State.Place, hpc] at hplace
    obtain ⟨hcur, hget⟩ := hplace
    obtain ⟨hlt, hr⟩ := List.getElem?_eq_some_iff.mp hget
    have herase : S.tasks.eraseIdx index = S.tasks.erase r := by
      rw [← h.owners.nodup.erase_getElem index hlt, hr]
    have howner : S.owner c = some r := by simp [State.owner, hpc, Pc.owned]
    have hself : ({ S with tasks := S.tasks.eraseIdx index }.goto c .outside).owner c = none := by
      simp [State.owner, Pc.owned, hcur]
    have hsub : (S.tasks.eraseIdx index).Sublist S.tasks := List.eraseIdx_sublist ..
    refine ⟨?_, fun x hx => h.fresh x (hsub.subset hx), fun x hx => h.ids_le x (hsub.subset hx),
      fun x hx y hy => h.ids x (hsub.subset hx) y (hsub.subset hy), fun x hx =>
        h.priority x (hsub.subset hx), fun x hx => h.since x (hsub.subset hx)⟩
    change Owners (S.tasks.eraseIdx index) _ _
    rw [herase]
    exact h.owners.remove howner (fun _ _ => Iff.rfl) (owner_of_others hothers hself)

/-! ## The places -/

/-- What a core knows rests on what it holds: its record, the guards, and the identifiers, which
never change. -/
theorem place_stable {c' : ℕ} (h : S.Place c') (hpc : S'.pc c' = S.pc c')
    (hcur : S'.current c' = S.current c') (hclock : S.clock ≤ S'.clock)
    (htasks : (S.pc c').tasksGuard ≠ none → S'.tasks = S.tasks)
    (hstate : ∀ r, (r, .write) ∈ (S.pc c').guards → (S'.task r).state = (S.task r).state)
    (hid : ∀ r, (S.pc c').owned = some r → (S'.task r).id = (S.task r).id) : S'.Place c' := by
  -- the best task so far is behind a guard, and the list does not move while it is being read
  have hbest {i : ℕ} {best : Option (ℕ × TaskRef)} (htasks' : S'.tasks = S.tasks)
      (hguard : ∀ j b, best = some (j, b) → (b, .write) ∈ (S.pc c').guards) (hb : S.Best i best) :
      S'.Best i best := by
    intro j b hj
    obtain ⟨hlt, hget, hpending⟩ := hb j b hj
    exact ⟨hlt, by rw [htasks', hget], by rw [hstate b (hguard j b hj), hpending]⟩
  unfold State.Place at h ⊢
  rw [hpc, hcur]
  cases hp : S.pc c' <;> simp only [hp, Pc.tasksGuard, Pc.owned] at h htasks hid hbest ⊢
  -- places with a time only need that the clock does not go back
  case saving | counts | upgrades | starts | checks => exact h.trans_le hclock
  case saves | measures | taken | releases => exact ⟨h.1, h.2.trans_le hclock⟩
  case continues | prints | adopted | own | exits | readsId => exact h
  case scans k i best =>
    refine ⟨h.1, h.2.1.trans_le hclock, hbest (htasks (by simp)) (fun j b hj => ?_) h.2.2⟩
    simp [Pc.guards, bestGuard, hj]
  case looks k i best r =>
    refine ⟨h.1, h.2.1.trans_le hclock, hbest (htasks (by simp)) (fun j b hj => ?_) h.2.2.1, ?_⟩
    · simp [Pc.guards, bestGuard, hj]
    · rw [htasks (by simp), h.2.2.2]
  case marked => exact ⟨h.1, by rw [htasks (by simp), h.2]⟩
  case exitWaits r id => exact ⟨h.1, by rw [hid r rfl, h.2]⟩
  case finds r id i => exact ⟨h.1, by rw [hid r rfl, h.2.1], by rw [htasks (by simp)]; exact h.2.2⟩
  case compares r id i x =>
    exact ⟨h.1, by rw [hid r rfl, h.2.1], by rw [htasks (by simp)]; exact h.2.2⟩
  case removes | erases => exact ⟨h.1, by rw [htasks (by simp), h.2]⟩

/-- The list belongs to those who hold its lock. -/
theorem Effect.tasks (heffect : Effect S c S') (h : Excludes S.tasksLock) {c' : ℕ} (hne : c' ≠ c)
    (hguard : (S.pc c').tasksGuard ≠ none) : S'.tasks = S.tasks := by
  obtain ⟨m, hm⟩ := Option.ne_none_iff_exists'.mp hguard
  -- a writer would be alone
  have hno (hwrite : S.tasksLock c .write) : False := hne (h.eq_of_write hwrite hm).symm
  cases heffect with
  | quiet htasks => exact htasks
  | push _ _ hlock => exact (hno hlock).elim
  | release => rfl
  | mark => rfl
  | erase hpc => exact (hno (by simp [State.tasksLock, hpc, Pc.tasksGuard])).elim

/-- The state of a task belongs to the core that has it locked for writing. -/
theorem Effect.state (heffect : Effect S c S') (h : Inv S) {c' : ℕ} (hne : c' ≠ c) {r : TaskRef}
    (hguard : (r, .write) ∈ (S.pc c').guards) (hr : r < S.nextRef) :
    (S'.task r).state = (S.task r).state := by
  have hno (hwrite : S.taskLock r c .write) : False :=
    hne ((h.taskLock r).eq_of_write hwrite hguard).symm
  have hset {x : TaskRef} {state : TaskState} {pc : Pc} (hx : S.taskLock x c .write) :
      (((S.setState x state).goto c pc).task r).state = (S.task r).state := by
    have hrx : r ≠ x := fun heq => hno (heq ▸ hx)
    simp [State.setState, State.setTask_task_of_ne hrx]
  cases heffect with
  | quiet _ _ _ _ _ _ hstate => exact hstate r
  | push =>
    rw [State.goto_task, State.push]
    exact congrArg Task.state (Function.update_of_ne (Nat.ne_of_lt hr) ..)
  | release hpc => exact hset (by simp [State.taskLock, hpc, Pc.guards])
  | mark hpc => exact hset (by simp [State.taskLock, hpc, Pc.guards, bestGuard])
  | erase => rfl

theorem Effect.id (heffect : Effect S c S') {r : TaskRef} (hr : r < S.nextRef) :
    (S'.task r).id = (S.task r).id := by
  have hset {x : TaskRef} {state : TaskState} {pc : Pc} :
      (((S.setState x state).goto c pc).task r).id = (S.task r).id := by
    by_cases hrx : r = x
    · simp [State.setState, hrx]
    · simp [State.setState, State.setTask_task_of_ne hrx]
  cases heffect with
  | quiet _ _ _ _ hid => exact hid r
  | push =>
    rw [State.goto_task, State.push]
    exact congrArg Task.id (Function.update_of_ne (Nat.ne_of_lt hr) ..)
  | release => exact hset
  | mark => exact hset
  | erase => rfl

theorem Effect.clock_le (heffect : Effect S c S') : S.clock ≤ S'.clock := by
  cases heffect with
  | quiet _ _ _ hclock => exact hclock
  | _ => exact le_rfl

/-- The guards for writing are on tasks of the list. -/
theorem Inv.guard_mem (h : Inv S) {r : TaskRef} {c' : ℕ} (hguard : (r, .write) ∈ (S.pc c').guards) :
    r ∈ S.tasks := by
  have hplace := h.places c'
  have howned := h.table.owners.owned c'
  unfold State.Place at hplace
  unfold State.owner at howned
  -- the guard of the best task so far was taken from the list
  have hbest {i : ℕ} {best : Option (ℕ × TaskRef)} (hb : S.Best i best)
      (hmem : (r, .write) ∈ bestGuard best) : r ∈ S.tasks := by
    obtain ⟨⟨j, b⟩, hj, hb'⟩ := List.mem_map.mp hmem
    obtain ⟨rfl, -⟩ := Prod.mk.inj hb'
    exact List.mem_of_getElem? (hb j b (Option.mem_toList.mp hj)).2.1
  cases hp : S.pc c' <;>
    simp only [hp, Pc.guards, Pc.owned, Option.none_or, Option.some_or, List.mem_cons,
      List.not_mem_nil, Prod.mk.injEq, reduceCtorEq, and_false, or_false] at hguard hplace howned
  -- the current task, and a task in hand, are in the list because they are owned
  case saves k x =>
    obtain ⟨rfl, -⟩ := hguard
    exact (howned r hplace.1).1
  case releases k x =>
    obtain ⟨rfl, -⟩ := hguard
    exact (howned r rfl).1
  case scans k i best => exact hbest hplace.2.2 hguard
  case looks k i best x =>
    rcases hguard with ⟨rfl, -⟩ | hguard
    · exact List.mem_of_getElem? hplace.2.2.2
    · exact hbest hplace.2.2.1 hguard
  case marked index x =>
    obtain ⟨rfl, -⟩ := hguard
    exact (howned r rfl).1
  case adopted x =>
    obtain ⟨rfl, -⟩ := hguard
    exact (howned r hplace).1
  case own x m =>
    obtain ⟨rfl, -⟩ := hguard
    exact (howned r hplace.1).1

/-- The places of the other cores. -/
theorem Effect.place (heffect : Effect S c S') (h : Inv S) {c' : ℕ} (hne : c' ≠ c)
    (hpc : S'.pc c' = S.pc c') (hcur : S'.current c' = S.current c') : S'.Place c' := by
  refine place_stable (h.places c') hpc hcur heffect.clock_le (heffect.tasks h.tasksLock hne)
    (fun r hguard => ?_) fun r howned => ?_
  · exact heffect.state h hne hguard (h.table.fresh r (h.guard_mem hguard))
  · have howner : S.owner c' = some r := by rw [State.owner, howned, Option.some_or]
    exact heffect.id (h.table.fresh r (h.table.owners.owned c' r howner).1)

theorem best_none (i : ℕ) : S.Best i none := fun _ _ h => by cases h

theorem best_succ {i : ℕ} {best : Option (ℕ × TaskRef)} (h : S.Best i best) : S.Best (i + 1) best :=
  fun j b hj => ⟨Nat.lt_succ_of_lt (h j b hj).1, (h j b hj).2⟩

/-- A core comes to its next place knowing what it should. -/
theorem step_place (h : Inv S) (hclock : S.clock + 1 < 2 ^ 64) (hstep : Step env S c S') :
    S'.Place c := by
  have hplace := h.places c
  cases hstep with
  -- the time that the core notes is before the clock that it has advanced
  | counts hpc =>
    simp only [State.Place, State.goto_pc_self, State.goto_clock, State.count]
    rw [Nat.mod_eq_of_lt hclock]
    exact Nat.lt_succ_self _
  | takesNothing hpc hcur =>
    simp only [State.Place, hpc] at hplace
    simpa [State.Place, hcur, hplace] using best_none 0
  | releases hpc =>
    simp only [State.Place, hpc] at hplace
    simpa [State.Place, State.setState, hplace] using best_none 0
  | tries hpc hget =>
    simp only [State.Place, hpc] at hplace
    simp only [State.Place, State.goto_pc_self]
    exact ⟨hplace.1, hplace.2.1, hplace.2.2, hget⟩
  | fails hpc =>
    simp only [State.Place, hpc] at hplace
    simp only [State.Place, State.goto_pc_self]
    exact ⟨hplace.1, hplace.2.1, best_succ hplace.2.2⟩
  | skips hpc =>
    simp only [State.Place, hpc] at hplace
    simp only [State.Place, State.goto_pc_self]
    exact ⟨hplace.1, hplace.2.1, best_succ hplace.2.2.1⟩
  -- the first pending task: its index and its guard belong together
  | first hpc hstate =>
    simp only [State.Place, hpc] at hplace
    simp only [State.Place, State.goto_pc_self]
    refine ⟨hplace.1, hplace.2.1, ?_⟩
    rintro j b ⟨⟩
    exact ⟨Nat.lt_succ_self _, hplace.2.2.2, hstate⟩
  | @better clock i j b r hpc hstate hlt =>
    -- no task is better than another
    simp only [State.Place, hpc] at hplace
    rw [h.table.priority r (List.mem_of_getElem? hplace.2.2.2)] at hlt
    exact absurd hlt (Nat.not_lt_zero _)
  | notBetter hpc =>
    simp only [State.Place, hpc] at hplace
    simp only [State.Place, State.goto_pc_self]
    exact ⟨hplace.1, hplace.2.1, best_succ hplace.2.2.1⟩
  | marks hpc =>
    simp only [State.Place, hpc] at hplace
    simp only [State.Place, State.goto_pc_self]
    exact ⟨hplace.1, (hplace.2.2 _ _ rfl).2.1⟩
  -- a task with another identifier is not the one that exits
  | @differs id i r x hpc hid =>
    simp only [State.Place, hpc] at hplace
    obtain ⟨hcur, rfl, hunseen, hget⟩ := hplace
    simp only [State.Place, State.goto_pc_self]
    refine ⟨hcur, rfl, fun j hj hr => ?_⟩
    rcases Nat.lt_succ_iff_lt_or_eq.mp hj with hlt | rfl
    · exact hunseen j hlt hr
    · obtain rfl : x = r := Option.some.inj (hget.symm.trans hr)
      exact hid rfl
  | @agrees id i r x hpc hid =>
    -- identifiers are unique
    simp only [State.Place, hpc] at hplace
    obtain ⟨hcur, rfl, -, hget⟩ := hplace
    have howner : S.owner c = some r := by simp [State.owner, hpc, Pc.owned]
    obtain rfl : x = r := h.table.ids x (List.mem_of_getElem? hget) r
      (h.table.owners.owned c r howner).1 hid
    simp only [State.Place, State.goto_pc_self]
    exact ⟨hcur, hget⟩
  | locksOwn hpc hm hcur =>
    simp only [State.Place, State.goto_pc_self]
    exact ⟨hcur, by rcases hm with rfl | rfl <;> simp⟩
  | _ =>
    unfold State.Place at hplace
    simp_all [State.Place, State.setTickMiss, State.setRegisters, State.push]

/-! ## Runs -/

/-- **One step keeps the invariant.** -/
theorem Inv.step (h : Inv S) (hclock : S.clock + 1 < 2 ^ 64) (hstep : Step env S c S') :
    Inv S' := by
  have heffect := step_effect h hclock hstep
  have hothers {c' : ℕ} (hne : c' ≠ c) := step_others hstep hne
  refine ⟨?_, fun r => ?_, ?_, fun c' => ?_⟩
  · refine h.tasksLock.step (i := c) (fun c' m hne hm => ?_) (step_tasksLock hstep)
    rwa [State.tasksLock, (hothers hne).1] at hm
  · refine (h.taskLock r).step (i := c) (fun c' m hne hm => ?_) fun m hm => ?_
    · rwa [State.taskLock, (hothers hne).1] at hm
    · rcases step_taskLock hstep r m hm with hm | hm
      · exact .inl hm
      · exact .inr (.inl hm)
  · refine heffect.table h.table (h.places c) fun c' hne => ?_
    rw [State.owner, (hothers hne).1, (hothers hne).2, State.owner]
  · by_cases hc : c' = c
    · rw [hc]
      exact step_place h hclock hstep
    · exact heffect.place h hc (hothers hc).1 (hothers hc).2

theorem Start.inv (h : Start S) : Inv S where
  tasksLock i j m m' _ hi := by simp [State.tasksLock, h.pc, Pc.tasksGuard] at hi
  taskLock r i j m m' _ hi := by simp [State.taskLock, h.pc, Pc.guards] at hi
  table := by
    refine ⟨⟨?_, ?_, ?_, ?_⟩, ?_, ?_, ?_, ?_, ?_⟩ <;>
      simp [h.tasks, State.owner, h.pc, Pc.owned, h.current]
  places c := by simp [State.Place, h.pc]

/-- The clock counts at most the steps. -/
theorem step_clock (hclock : S.clock + 1 < 2 ^ 64) (hstep : Step env S c S') :
    S'.clock ≤ S.clock + 1 := by
  cases hstep with
  | counts => exact (Nat.mod_eq_of_lt hclock).le
  | _ => exact Nat.le_succ _

/-- The invariant holds at every point of every interleaving of less than `2 ^ 64` steps. -/
theorem Start.run {S₀ : State} {cs : List ℕ} (h : Start S₀) (hrun : Run (Step env) S₀ cs S)
    (hlen : cs.length < 2 ^ 64) : Inv S ∧ S.clock ≤ cs.length := by
  refine hrun.invariant (I := fun n S => Inv S ∧ S.clock ≤ n) ⟨h.inv, h.clock.le⟩ ?_
  rintro n S₁ c S₂ hn ⟨hinv, hle⟩ hstep
  have hclock : S₁.clock + 1 < 2 ^ 64 := by omega
  have hle' := step_clock hclock hstep
  exact ⟨hinv.step hclock hstep, by omega⟩

/-- **Ownership between the locks.**  At every point of every interleaving, with any number of cores
in the middle of `tick`, `exit_current` and `Spawn`: no two cores own the same task; what a core
owns is in the list and running, and has been for a while; every running task in the list is owned;
and whoever may change the list, or the state of a task, is the only one who looks at it. -/
theorem interleaved_ownership {S₀ : State} {cs : List ℕ} (h : Start S₀)
    (hrun : Run (Step env) S₀ cs S) (hlen : cs.length < 2 ^ 64) :
    (∀ c c' r, S.owner c = some r → S.owner c' = some r → c = c') ∧
    (∀ c r, S.owner c = some r →
      r ∈ S.tasks ∧ ∃ since < S.clock, (S.task r).state = .running since) ∧
    (∀ r ∈ S.tasks, (S.task r).state ≠ .pending → ∃ c, S.owner c = some r) ∧
    (∀ c c', S.tasksLock c .write → (S.pc c').tasksGuard ≠ none → c' = c) ∧
    ∀ r c c' m, S.taskLock r c .write → S.taskLock r c' m → c' = c := by
  obtain ⟨hinv, -⟩ := h.run hrun hlen
  refine ⟨hinv.table.owners.unique, fun c r hr => ?_, hinv.table.owners.owner_of,
    fun c c' hw hm => ?_, fun r c c' m hw hm => ((hinv.taskLock r).eq_of_write hw hm).symm⟩
  · obtain ⟨hmem, hruns⟩ := hinv.table.owners.owned c r hr
    cases hs : (S.task r).state with
    | pending => exact absurd hs hruns
    | running since => exact ⟨hmem, since, hinv.table.since r hmem since hs, rfl⟩
  · obtain ⟨m, hm⟩ := Option.ne_none_iff_exists'.mp hm
    exact (hinv.tasksLock.eq_of_write hw hm).symm

end Steps

/-! ## Two tasks on two cores -/

section Runs

variable {env : Env} {S S₀ : State} {c : ℕ} {cs : List ℕ} {pc pc' : Pc}

theorem run_goto (hrun : Run (Step env) S₀ cs (S.goto c pc))
    (h : Step env (S.goto c pc) c ((S.goto c pc).goto c pc')) :
    Run (Step env) S₀ (cs ++ [c]) (S.goto c pc') := by
  rw [goto_goto] at h
  exact hrun.snoc h

variable (hout : ∀ c, S.pc c = .outside)
include hout

theorem spawn_run (c : ℕ) (procstate : TaskProcState) (memoryMap : MemoryMap) :
    Run (Step env) S [c, c, c] (S.push procstate memoryMap) := by
  have hwaits : Run (Step env) S [c] (S.goto c .spawnWaits) := .single (.spawnWaits (hout c))
  have hspawns := run_goto hwaits (.spawnGets State.goto_pc_self (grants_tasks hout rfl _))
  have hpush : Step env (S.goto c .spawns) c
      (((S.goto c .spawns).push procstate memoryMap).goto c .outside) :=
    .spawns procstate memoryMap State.goto_pc_self
  rw [push_goto, goto_outside (S := S.push procstate memoryMap) hout] at hpush
  exact hspawns.snoc hpush

theorem count_run (hmiss : S.tickMiss c ≤ MAX_TICK_MISS) (hcur : S.current c = none) :
    Run (Step env) S [c, c, c] ((S.count c).goto c (.counts S.clock)) := by
  have hgets : Run (Step env) S [c] (S.goto c .granted) :=
    .single (.tickTries (hout c) hmiss (grants_tasks_idle hout _))
  have hcount : Step env (S.goto c .granted) c
      (((S.goto c .granted).count c).goto c (.saving S.clock)) :=
    .counts State.goto_pc_self
  rw [count_goto] at hcount
  exact run_goto (hgets.snoc hcount) (.savesNothing State.goto_pc_self hcur)

/-- The last steps of a tick that finds a task at the end of the list. -/
theorem pick_run {k i : ℕ} {r : TaskRef} (hget : S.tasks[i]? = some r)
    (hlast : S.tasks.length = i + 1) (hpending : (S.task r).state = .pending) :
    Run (Step env) (S.goto c (.scans k i none)) [c, c, c, c, c, c]
      ((S.setState r (.running k)).setCurrent c (some r)) := by
  have hlooks : Run (Step env) (S.goto c (.scans k i none)) [c] (S.goto c (.looks k i none r)) :=
    run_goto (.nil _)
      (.tries State.goto_pc_self hget (grants_task hout (by simp [Pc.guards, bestGuard]) _))
  have hfirst := run_goto hlooks (.first State.goto_pc_self hpending)
  have hmarks : Step env (S.goto c (.scans k (i + 1) (some (i, r)))) c
      (((S.goto c (.scans k (i + 1) (some (i, r)))).setState r (.running k)).goto c
        (.marked i r)) :=
    .marks State.goto_pc_self hlast.le
  rw [State.setState, setTask_goto] at hmarks
  have hadopts : Step env ((S.setState r (.running k)).goto c (.marked i r)) c
      ((((S.setState r (.running k)).goto c (.marked i r)).setCurrent c (some r)).goto c
        (.adopted r)) :=
    .adopts State.goto_pc_self hget
  rw [setCurrent_goto] at hadopts
  have hleaves := run_goto ((hfirst.snoc hmarks).snoc hadopts) (.unlocks State.goto_pc_self)
  have hends := run_goto hleaves (.leaves State.goto_pc_self)
  rwa [goto_outside (S := (S.setState r (.running k)).setCurrent c (some r)) hout] at hends

end Runs

/-- Two cores, and an initrd in which every file is an executable. -/
def initEnv : Env := ⟨fun _ => some bareFile, 2, 0⟩

/-- No task yet. -/
def idleState : State where
  tasks := []
  task _ := ⟨0, 0, default, .new, .pending⟩
  nextRef := 0
  clock := 0
  idCount := 0
  current _ := none
  tickMiss _ := 0
  pc _ := .outside

theorem idleState_start : Start idleState := ⟨rfl, rfl, fun _ => rfl, fun _ => rfl⟩

/-- Core 0 has started init, and runs it. -/
def initRuns : State :=
  (((idleState.count 0).push (.new bareElf.header.entrypoint) .new).setState 0
    (.running 0)).setCurrent 0
    (some 0)

/-- Init has spawned a task, and core 1 runs that. -/
def bothRun : State :=
  (((initRuns.push default .new).count 1).setState 1 (.running 1)).setCurrent 1 (some 1)

/-- Core 1 changes the registers of its task, while core 0 spawns another one. -/
def busyState : State := (bothRun.goto 1 (.own 1 .write)).goto 0 .spawns

theorem initRuns_run : Run (Step initEnv) idleState (List.replicate 13 0) initRuns := by
  have hout : ∀ c, (idleState.count 0).pc c = .outside := fun _ => rfl
  have hcounts : Run (Step initEnv) idleState [0, 0, 0] ((idleState.count 0).goto 0 (.counts 0)) :=
    count_run (fun _ => rfl) (by decide) rfl
  have hwaits := run_goto hcounts (.noTasks State.goto_pc_self rfl)
  have hstarts := run_goto hwaits (.upgrades State.goto_pc_self (alone_tasks hout))
  have hpush : Step initEnv ((idleState.count 0).goto 0 (.starts 0)) 0
      ((((idleState.count 0).goto 0 (.starts 0)).push (.new bareElf.header.entrypoint) .new).goto 0
        (.checks 0)) := .starts .new State.goto_pc_self rfl
  rw [push_goto] at hpush
  have hscans := run_goto (hstarts.snoc hpush) (.takesNothing State.goto_pc_self rfl)
  exact hscans.append (pick_run (fun _ => rfl) rfl rfl rfl)

theorem bothRun_run : Run (Step initEnv) initRuns ([0, 0, 0] ++ List.replicate 13 1) bothRun := by
  have hout : ∀ c, ((initRuns.push default .new).count 1).pc c = .outside := fun _ => rfl
  have hspawn : Run (Step initEnv) initRuns [0, 0, 0] (initRuns.push default .new) :=
    spawn_run (fun _ => rfl) 0 default .new
  have hcounts : Run (Step initEnv) (initRuns.push default .new) [1, 1, 1]
      (((initRuns.push default .new).count 1).goto 1 (.counts 1)) :=
    count_run (fun _ => rfl) (by decide) rfl
  have hchecks := run_goto hcounts (.hasTasks State.goto_pc_self (List.cons_ne_nil _ _))
  have hscans := run_goto hchecks (.takesNothing State.goto_pc_self rfl)
  have hlooks := run_goto hscans
    (.tries State.goto_pc_self rfl (grants_task hout (by simp [Pc.guards, bestGuard]) _))
  have hrunning : (((initRuns.push default .new).count 1).task 0).state = .running 0 := rfl
  have hskips := run_goto hlooks (.skips State.goto_pc_self (hrunning.trans_ne (by simp)))
  exact hspawn.append (hskips.append (pick_run hout rfl rfl rfl))

theorem busyState_run : ∃ cs, cs.length < 2 ^ 64 ∧ Run (Step initEnv) idleState cs busyState := by
  have hout : ∀ c, bothRun.pc c = .outside := fun _ => rfl
  have hown : Step initEnv bothRun 1 (bothRun.goto 1 (.own 1 .write)) :=
    .locksOwn rfl (.inr rfl) rfl (grants_task_idle hout _ _)
  have hwaits : Step initEnv (bothRun.goto 1 (.own 1 .write)) 0
      ((bothRun.goto 1 (.own 1 .write)).goto 0 .spawnWaits) := .spawnWaits rfl
  have hfree : Grants ((bothRun.goto 1 (.own 1 .write)).goto 0 .spawnWaits).tasksLock .write := by
    by_contra hno
    obtain ⟨c, m, hm⟩ := exists_of_not_grants hno
    by_cases hc : c = 0
    · subst hc
      cases hm
    · rw [State.tasksLock, State.goto_pc_of_ne hc] at hm
      cases (tasksLock_alone hout hm).2
  have hrun := initRuns_run.append bothRun_run
  have hspawns := run_goto ((hrun.snoc hown).snoc hwaits) (.spawnGets State.goto_pc_self hfree)
  exact ⟨_, by decide, hspawns⟩

theorem interleaved_ownership_two :
    ∃ cs, Start idleState ∧ Run (Step initEnv) idleState cs busyState ∧
    busyState.tasks = [0, 1] ∧ busyState.owner 0 = some 0 ∧ busyState.owner 1 = some 1 ∧
    busyState.tasksLock 0 .write ∧ busyState.taskLock 1 1 .write ∧
    (∀ c, busyState.owner c = some 0 → c = 0) ∧
    (∃ since < busyState.clock, (busyState.task 1).state = .running since) ∧
    (∃ c, busyState.owner c = some 1) ∧
    (∀ c, (busyState.pc c).tasksGuard ≠ none → c = 0) ∧
    ∀ c m, busyState.taskLock 1 c m → c = 1 := by
  obtain ⟨cs, hlen, hrun⟩ := busyState_run
  have howns : busyState.owner 0 = some 0 ∧ busyState.owner 1 = some 1 := ⟨rfl, rfl⟩
  have hlocks : busyState.tasksLock 0 .write ∧ busyState.taskLock 1 1 .write := ⟨rfl, .head _⟩
  obtain ⟨hunique, hruns, howned, htasks, htask⟩ := interleaved_ownership idleState_start hrun hlen
  exact ⟨cs, idleState_start, hrun, rfl, howns.1, howns.2, hlocks.1, hlocks.2,
    fun c hc => hunique c 0 0 hc howns.1, (hruns 1 1 howns.2).2, howned 1 (by decide) nofun,
    fun c hc => htasks 0 c hlocks.1 hc, fun c m hm => htask 1 1 c m hlocks.2 hm⟩

end HeliumOS.Proc.Locking
