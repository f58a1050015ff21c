import HeliumOS.Proc.LockingInvariant

/-!
# No Deadlock between the Locks

At every point of every interleaving a core that is in the scheduler can go on, or waits for a lock
(`able_or_waits`), unless it has panicked while it loaded a program.  So the `unreachable!`, the
subtraction of times, the index into the list, the removal and the early return of `exit_current`
are never in its way.  Of panics elsewhere, such as in the allocator behind `Vec::push`, the model
knows nothing.

Whoever waits, waits for somebody who is closer to the end: for the lock on a task, somebody who has
a task locked; for an upgrade, a reader of the list; for the list, somebody who has it locked
(`waits_for`).  Hence somebody can always go on (`never_deadlocks`), as long as nobody has panicked:
a core that panics while it loads a program has `TASKS` locked for writing, and never lets it go
(`halted_run`).
-/

namespace HeliumOS.Proc.Locking

open HeliumOS.Lib HeliumOS.Mem

/-- The core waits for a lock that it is not given. -/
def State.Waits (S : State) (c : ℕ) : Prop :=
  match S.pc c with
  | .tickWaits | .exitWaits .. => ¬ Grants S.tasksLock .upgradeable
  | .spawnWaits => ¬ Grants S.tasksLock .write
  | .upgrades _ | .removes .. => ¬ Alone S.tasksLock c
  | .saving _ => ∃ r, S.current c = some r ∧ ¬ Grants (S.taskLock r) .write
  | .checks _ | .continues => ∃ r, S.current c = some r ∧ ¬ Grants (S.taskLock r) .read
  | .taken _ r => ¬ Grants (S.taskLock r) .write
  | .exits r => ¬ Grants (S.taskLock r) .read
  | .finds _ _ i => ∃ x, S.tasks[i]? = some x ∧ ¬ Grants (S.taskLock x) .read
  | .outside | .granted | .saves .. | .counts _ | .starts _ | .measures .. | .releases ..
      | .prints _
  | .scans .. | .looks .. | .marked .. | .adopted _ | .leaves | .readsId _ | .compares ..
      | .erases ..
  | .spawns | .halted | .own .. => False

/-- How far a core is from the end of what it does. -/
def Pc.rank (pc : Pc) : ℕ :=
  if pc.guards ≠ [] then 0
  else match pc.tasksGuard with
    | some .read => 1
    | some .upgradeable | some .write => 2
    | none => 3

section Progress

variable {env : Env} {S : State} {c : ℕ}

/-! ## One core -/

/-- A step, or the lock that is missing. -/
theorem able_or_not {P : Prop} {S' : State} (h : P → Step env S c S') :
    (∃ S', Step env S c S') ∨ ¬ P := by
  by_cases hP : P
  · exact .inl ⟨S', h hP⟩
  · exact .inr hP

/-- The closure of `take_if` comes to a result: the task of a core is running, it was started before
now, and its life expectancy is a product that does not overflow. -/
theorem able_measures (h : Inv S) (hcores : 10 * env.numcores < 2 ^ 64) {k : ℕ} {r : TaskRef}
    (hpc : S.pc c = .measures k r) : ∃ S', Step env S c S' := by
  have hplace := h.places c
  simp only [State.Place, hpc] at hplace
  have howner : S.owner c = some r := by simp [State.owner, hpc, Pc.owned, hplace.1]
  obtain ⟨hmem, hruns⟩ := h.table.owners.owned c r howner
  cases hs : (S.task r).state with
  | pending => exact absurd hs hruns
  | running since =>
    have hsince : since ≤ S.clock := (h.table.since r hmem since hs).le
    have hlife : lifeExpectancy env (S.task r) = .ok (10 * env.numcores) := by
      simp only [lifeExpectancy, h.table.priority r hmem]
      refine except_bind_eq_ok.mpr ⟨10, rfl, ?_⟩
      exact checkedMul_eq_ok.mpr ⟨hcores, rfl⟩
    by_cases hlt : S.clock - since < 10 * env.numcores
    · exact ⟨_, .lasts hpc hs hsince hlife hlt⟩
    · exact ⟨_, .takes hpc hs hsince hlife (Nat.le_of_not_lt hlt)⟩

/-- The loop over the tasks never waits. -/
theorem able_scans {k i : ℕ} {best : Option (ℕ × TaskRef)} (hpc : S.pc c = .scans k i best) :
    ∃ S', Step env S c S' := by
  cases hget : S.tasks[i]? with
  | some r =>
    by_cases hlock : Grants (S.taskLock r) .write
    · exact ⟨_, .tries hpc hget hlock⟩
    · exact ⟨_, .fails hpc hget hlock⟩
  | none =>
    have hend : S.tasks.length ≤ i := List.getElem?_eq_none_iff.mp hget
    cases best with
    | none => exact ⟨_, .findsNothing hpc hend⟩
    | some b => exact ⟨_, .marks hpc hend⟩

theorem able_looks {k i : ℕ} {best : Option (ℕ × TaskRef)} {r : TaskRef}
    (hpc : S.pc c = .looks k i best r) : ∃ S', Step env S c S' := by
  by_cases hstate : (S.task r).state = .pending
  · cases best with
    | none => exact ⟨_, .first hpc hstate⟩
    | some b =>
      by_cases hlt : (S.task b.2).priority < (S.task r).priority
      · exact ⟨_, .better hpc hstate hlt⟩
      · exact ⟨_, .notBetter hpc hstate (Nat.le_of_not_lt hlt)⟩
  · exact ⟨_, .skips hpc hstate⟩

/-- A core in the scheduler goes on or waits, unless it has panicked. It waits for `TASKS` or for a
task; everywhere else the next instruction can be executed. -/
theorem able_or_waits (h : Inv S) (hcores : 10 * env.numcores < 2 ^ 64) (hbusy : S.pc c ≠ .outside)
    (hlive : S.pc c ≠ .halted) : (∃ S', Step env S c S') ∨ S.Waits c := by
  have hplace := h.places c
  unfold State.Place at hplace
  unfold State.Waits
  -- one case for each place; where a lock is asked for, it is given or the core waits
  cases hp : S.pc c <;> simp only [hp] at hplace ⊢
  case outside => exact absurd hp hbusy
  case halted => exact absurd hp hlive
  case tickWaits => exact able_or_not (.tickGets hp)
  case granted => exact .inl ⟨_, .counts hp⟩
  case saving k =>
    cases hcur : S.current c with
    | none => exact .inl ⟨_, .savesNothing hp hcur⟩
    | some r => exact (able_or_not (.locksSaved hp hcur)).imp_right fun hno => ⟨r, rfl, hno⟩
  case saves k r => exact .inl ⟨_, .saves default hp⟩
  case counts k =>
    by_cases htasks : S.tasks = []
    · exact .inl ⟨_, .noTasks hp htasks⟩
    · exact .inl ⟨_, .hasTasks hp htasks⟩
  case upgrades k => exact able_or_not (.upgrades hp)
  -- whatever becomes of init, the core can at least panic
  case starts k => exact .inl ⟨_, .noInit hp⟩
  case checks k =>
    cases hcur : S.current c with
    | none => exact .inl ⟨_, .takesNothing hp hcur⟩
    | some r => exact (able_or_not (.locksMeasured hp hcur)).imp_right fun hno => ⟨r, rfl, hno⟩
  case measures k r => exact .inl (able_measures h hcores hp)
  case taken k r => exact able_or_not (.locksReleased hp)
  case releases k r => exact .inl ⟨_, .releases hp⟩
  -- the task has not been taken, so that the core still has one
  case continues =>
    obtain ⟨r, hcur⟩ := Option.ne_none_iff_exists'.mp hplace
    exact (able_or_not (.locksPrinted hp hcur)).imp_right fun hno => ⟨r, hcur, hno⟩
  case prints r => exact .inl ⟨_, .prints hp⟩
  case scans k i best => exact .inl (able_scans hp)
  case looks k i best r => exact .inl (able_looks hp)
  case marked index guard => exact .inl ⟨_, .adopts hp hplace.2⟩
  case adopted guard => exact .inl ⟨_, .unlocks hp⟩
  case leaves => exact .inl ⟨_, .leaves hp⟩
  case exits r => exact able_or_not (.locksId hp)
  case readsId r => exact .inl ⟨_, .readsId hp⟩
  case exitWaits r id => exact able_or_not (.exitGets hp)
  -- `find` is not at the end, as the task that exits is still to come
  case finds r id i =>
    have hget := List.getElem?_eq_getElem (h.unseen_lt hp)
    exact (able_or_not (.locksCompared hp hget)).imp_right fun hno => ⟨_, hget, hno⟩
  case compares r id i x =>
    by_cases hid : (S.task x).id = id
    · exact .inl ⟨_, .agrees hp hid⟩
    · exact .inl ⟨_, .differs hp hid⟩
  case removes r index => exact able_or_not (.removes hp)
  case erases r index =>
    exact .inl ⟨_, .erases hp (List.getElem?_eq_some_iff.mp hplace.2).1⟩
  case spawnWaits => exact able_or_not (.spawnGets hp)
  case spawns => exact .inl ⟨_, .spawnFails hp⟩
  case own r m =>
    cases m with
    | read => exact .inl ⟨_, .reads hp⟩
    | upgradeable => exact absurd rfl hplace.2
    | write => exact .inl ⟨_, .writes default hp⟩

/-! ## All cores -/

/-- Whoever holds a task is closest to the end. -/
theorem rank_of_taskLock {r : TaskRef} {m : LockMode} (h : S.taskLock r c m) :
    (S.pc c).rank = 0 := by
  rw [Pc.rank, if_pos]
  exact List.ne_nil_of_mem h

theorem rank_of_read (h : S.tasksLock c .read) : (S.pc c).rank ≤ 1 := by
  rw [State.tasksLock] at h
  unfold Pc.rank
  split_ifs
  · exact Nat.zero_le 1
  · rw [h]

theorem rank_of_tasksLock {m : LockMode} (h : S.tasksLock c m) : (S.pc c).rank ≤ 2 := by
  rw [State.tasksLock] at h
  unfold Pc.rank
  split_ifs
  · exact Nat.zero_le 2
  · rw [h]
    cases m <;> simp

theorem busy_of_tasksLock {m : LockMode} (h : S.tasksLock c m) : S.pc c ≠ .outside := by
  intro hpc
  simp [State.tasksLock, hpc, Pc.tasksGuard] at h

theorem busy_of_taskLock {r : TaskRef} {m : LockMode} (h : S.taskLock r c m) :
    S.pc c ≠ .outside := by
  intro hpc
  simp [State.taskLock, hpc, Pc.guards] at h

/-- A core that waits, waits for one that is closer to the end. There are three kinds of waiting,
one for each kind of lock operation: for a task, for the list, and for the other readers of the
list. -/
theorem waits_for (h : Inv S) (hwaits : S.Waits c) :
    ∃ c', S.pc c' ≠ .outside ∧ (S.pc c').rank < (S.pc c).rank := by
  -- whoever holds a task waits for nothing
  have htask {r : TaskRef} {m : LockMode} (hno : ¬ Grants (S.taskLock r) m)
      (hrank : 0 < (S.pc c).rank) : ∃ c', S.pc c' ≠ .outside ∧ (S.pc c').rank < (S.pc c).rank := by
    obtain ⟨c', m', hm⟩ := exists_of_not_grants hno
    exact ⟨c', busy_of_taskLock hm, by rwa [rank_of_taskLock hm]⟩
  -- whoever holds the list can only wait for tasks or readers
  have htasks {m : LockMode} (hno : ¬ Grants S.tasksLock m) (hrank : (S.pc c).rank = 3) :
      ∃ c', S.pc c' ≠ .outside ∧ (S.pc c').rank < (S.pc c).rank := by
    obtain ⟨c', m', hm⟩ := exists_of_not_grants hno
    exact ⟨c', busy_of_tasksLock hm, by have := rank_of_tasksLock hm; omega⟩
  -- next to an upgradeable reader there are only readers
  have hupgrade (hno : ¬ Alone S.tasksLock c) (hlock : S.tasksLock c .upgradeable)
      (hrank : (S.pc c).rank = 2) : ∃ c', S.pc c' ≠ .outside ∧ (S.pc c').rank < (S.pc c).rank := by
    obtain ⟨c', -, hm⟩ := h.tasksLock.exists_reader hlock hno
    exact ⟨c', busy_of_tasksLock hm, by have := rank_of_read hm; omega⟩
  unfold State.Waits at hwaits
  cases hp : S.pc c <;> simp only [hp] at hwaits htask htasks hupgrade ⊢
  case tickWaits | exitWaits | spawnWaits => exact htasks hwaits rfl
  case upgrades | removes =>
    exact hupgrade hwaits (by simp [State.tasksLock, hp, Pc.tasksGuard]) rfl
  case saving | checks | continues =>
    obtain ⟨r, -, hno⟩ := hwaits
    exact htask hno (by simp [Pc.rank, Pc.guards, Pc.tasksGuard])
  case taken | exits => exact htask hwaits (by simp [Pc.rank, Pc.guards, Pc.tasksGuard])
  case finds =>
    obtain ⟨x, -, hno⟩ := hwaits
    exact htask hno (by simp [Pc.rank, Pc.guards, Pc.tasksGuard])

/-! ## A core that has panicked -/

theorem not_step_of_halted {S' : State} (h : S.pc c = .halted) : ¬ Step env S c S' := by
  intro hstep
  cases hstep <;> simp_all

/-- A core that has panicked stays where it is, and `TASKS` stays locked: the guard of a panicking
core is never dropped. -/
theorem halted_run {S' : State} {cs : List ℕ} (h : S.pc c = .halted)
    (hrun : Run (Step env) S cs S') :
    S'.pc c = .halted ∧ ∀ m, ¬ Grants S'.tasksLock m := by
  have hhalted : S'.pc c = .halted := by
    refine hrun.preserves (I := fun S' => S'.pc c = .halted) h fun S₁ c' S₂ h₁ hstep => ?_
    have hne : c ≠ c' := by
      rintro rfl
      exact not_step_of_halted h₁ hstep
    rw [(step_others hstep hne).1, h₁]
  have hwrite : S'.tasksLock c .write := by simp [State.tasksLock, hhalted, Pc.tasksGuard]
  exact ⟨hhalted, fun m hgrants => LockMode.not_compatible_write (hgrants.compatible hwrite).symm⟩

/-- **No deadlock.** At every point of every interleaving, each core in the scheduler can make its
next step, unless it waits for a lock or has panicked while it loaded a program; the panic itself is
such a step. If there are cores in the scheduler and none of them has panicked, one can make its
next step. A core that has panicked blocks the others: from then on, nobody is given the lock on
`TASKS`. -/
theorem never_deadlocks {S₀ : State} {cs : List ℕ} (h : Start S₀) (hrun : Run (Step env) S₀ cs S)
    (hlen : cs.length < 2 ^ 64) (hcores : 10 * env.numcores < 2 ^ 64) :
    (∀ c, S.pc c ≠ .outside → S.pc c ≠ .halted → (∃ S', Step env S c S') ∨ S.Waits c) ∧
    ((∀ c, S.pc c ≠ .halted) → (∃ c, S.pc c ≠ .outside) →
      ∃ c S', S.pc c ≠ .outside ∧ Step env S c S') ∧
    ∀ c, S.pc c = .halted → ∀ cs' S', Run (Step env) S cs' S' →
      S'.pc c = .halted ∧ ∀ m, ¬ Grants S'.tasksLock m := by
  obtain ⟨hinv, -⟩ := h.run hrun hlen
  refine ⟨fun c => able_or_waits hinv hcores, fun hlive ⟨c, hbusy⟩ => ?_,
    fun c hc cs' S' hrun' => halted_run hc hrun'⟩
  have hwaits (c : ℕ) (hbusy : S.pc c ≠ .outside) : (S.pc c ≠ .outside ∧ ∃ S', Step env S c S') ∨
      ∃ c', S.pc c' ≠ .outside ∧ (S.pc c').rank < (S.pc c).rank := by
    rcases able_or_waits hinv hcores hbusy (hlive c) with hable | hwaits
    · exact .inl ⟨hbusy, hable⟩
    · exact .inr (waits_for hinv hwaits)
  obtain ⟨c', hc', S', hstep⟩ := exists_able_of_rank (fun c => (S.pc c).rank) hwaits hbusy
  exact ⟨c', S', hc', hstep⟩

end Progress

theorem busyState_not_halted (c : ℕ) : busyState.pc c ≠ .halted := by
  by_cases h0 : c = 0
  · rw [h0]
    exact nofun
  by_cases h1 : c = 1
  · rw [h1]
    exact nofun
  rw [busyState, State.goto_pc_of_ne h0, State.goto_pc_of_ne h1]
  exact nofun

/-- In the state of two busy cores with a task each, one of them can go on. -/
theorem never_deadlocks_two : ∃ cs, Start idleState ∧ Run (Step initEnv) idleState cs busyState ∧
    busyState.tasks = [0, 1] ∧ busyState.current 0 = some 0 ∧ busyState.current 1 = some 1 ∧
    ∃ c S', busyState.pc c ≠ .outside ∧ Step initEnv busyState c S' := by
  obtain ⟨cs, hlen, hrun⟩ := busyState_run
  have hbusy : busyState.pc 0 ≠ .outside := nofun
  exact ⟨cs, idleState_start, hrun, rfl, rfl, rfl,
    (never_deadlocks idleState_start hrun hlen (by decide)).2.1 busyState_not_halted ⟨0, hbusy⟩⟩

end HeliumOS.Proc.Locking
