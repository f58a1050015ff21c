import HeliumOS.Proc.AddressSpace

/-!
# Which Task a Tick Picks

The selection loop of `tick` for any priorities and any pattern of locks.

- `selectFrom_none` says what the loop computes: the guard of the best task, and the index of the
  first one.
- `selects_iff`: the task that is marked is the task that is run exactly if the first candidate is
  also the best one.
- `hands_over_iff`: when a time slice has expired, the core goes to another task exactly if this
  other task stands before the released one in the list, or the released one cannot be locked.
-/

namespace HeliumOS.Proc

open HeliumOS.Lib HeliumOS.Lib.AllocProg HeliumOS.Mem HeliumOS.Mem.Virt

/-! ## Candidates -/

section Candidates

variable {sys sys' : System} {locks : Locks} {rs : List TaskRef} {i j : ℕ} {r b : TaskRef}

/-- The task at position `j` of the list, whose first position is `i`, is pending and can be
locked. -/
def OffersFrom (sys : System) (locks : Locks) (rs : List TaskRef) (i j : ℕ) (r : TaskRef) : Prop :=
  ∃ k, rs[k]? = some r ∧ j = i + k ∧ locks.write j = true ∧ (sys.task r).state = .pending

theorem offersFrom_cons {x : TaskRef} : OffersFrom sys locks (x :: rs) i j r ↔
    (j = i ∧ r = x ∧ locks.write i = true ∧ (sys.task x).state = .pending) ∨
      OffersFrom sys locks rs (i + 1) j r := by
  constructor
  · rintro ⟨k, hk, rfl, hlock, hstate⟩
    cases k with
    | zero =>
      obtain rfl : x = r := by simpa using hk
      exact .inl ⟨rfl, rfl, hlock, hstate⟩
    | succ k => exact .inr ⟨k, by simpa using hk, by omega, hlock, hstate⟩
  · rintro (⟨rfl, rfl, hlock, hstate⟩ | ⟨k, hk, rfl, hlock, hstate⟩)
    · exact ⟨0, rfl, rfl, hlock, hstate⟩
    · exact ⟨k + 1, by simpa using hk, by omega, hlock, hstate⟩

theorem OffersFrom.le (h : OffersFrom sys locks rs i j r) : i ≤ j := by
  obtain ⟨k, -, rfl, -, -⟩ := h
  exact Nat.le_add_right i k

/-- A candidate of the highest priority, and the earliest of these. -/
structure IsBest (sys : System) (C : ℕ → TaskRef → Prop) (j : ℕ) (r : TaskRef) : Prop where
  mem : C j r
  priority_le : ∀ j' r', C j' r' → (sys.task r').priority ≤ (sys.task r).priority
  earliest : ∀ j' r', C j' r' → (sys.task r').priority = (sys.task r).priority → j ≤ j'

/-- One more candidate that is not better. -/
theorem IsBest.insert {C C' : ℕ → TaskRef → Prop} {x : TaskRef} (h : IsBest sys C j r)
    (hC : ∀ j' r', C' j' r' ↔ (j' = i ∧ r' = x) ∨ C j' r')
    (hle : (sys.task x).priority ≤ (sys.task r).priority)
    (hfirst : (sys.task x).priority = (sys.task r).priority → j ≤ i) : IsBest sys C' j r := by
  refine ⟨(hC j r).mpr (.inr h.mem), fun j' r' h' => ?_, fun j' r' h' heq => ?_⟩
  · rcases (hC j' r').mp h' with ⟨rfl, rfl⟩ | h'
    · exact hle
    · exact h.priority_le j' r' h'
  · rcases (hC j' r').mp h' with ⟨rfl, rfl⟩ | h'
    · exact hfirst heq
    · exact h.earliest j' r' h' heq

/-- A task that is locked or not pending is no candidate, and the loop passes over it. -/
theorem selectFrom_skip {x : TaskRef} (rs : List TaskRef) (best : Option (ℕ × TaskRef))
    (hx : ¬ (locks.write i = true ∧ (sys.task x).state = .pending)) :
    selectFrom sys locks (x :: rs) i best = selectFrom sys locks rs (i + 1) best ∧
      ∀ j r, OffersFrom sys locks (x :: rs) i j r ↔ OffersFrom sys locks rs (i + 1) j r := by
  constructor
  · conv_lhs => rw [selectFrom.eq_def]
    simp only
    split_ifs with hlock hstate
    · rfl
    · rfl
    · exact absurd ⟨by simpa using hlock, not_not.mp hstate⟩ hx
  · intro j r
    rw [offersFrom_cons]
    exact ⟨fun h => h.resolve_left fun h => hx h.2.2, .inr⟩

/-- With a task to beat, the loop keeps the index that it has, and ends with the guard of the best
task among this one and the candidates. -/
theorem selectFrom_some (sys : System) (locks : Locks) (rs : List TaskRef) (b : TaskRef) (index : ℕ)
    {g : ℕ} (hg : g < i) :
    ∃ g' b', selectFrom sys locks rs i (some (index, b)) = some (index, b') ∧
      IsBest sys (fun j r => (j = g ∧ r = b) ∨ OffersFrom sys locks rs i j r) g' b' := by
  induction rs generalizing i g b with
  | nil =>
    refine ⟨g, b, rfl, .inl ⟨rfl, rfl⟩, ?_, ?_⟩
    · rintro j' r' (⟨-, rfl⟩ | ⟨k, hk, -⟩)
      · exact le_rfl
      · cases hk
    · rintro j' r' (⟨rfl, -⟩ | ⟨k, hk, -⟩) -
      · exact le_rfl
      · cases hk
  | cons x rs ih =>
    by_cases hx : locks.write i = true ∧ (sys.task x).state = .pending
    · have hoffers (j : ℕ) (r : TaskRef) : OffersFrom sys locks (x :: rs) i j r ↔
          (j = i ∧ r = x) ∨ OffersFrom sys locks rs (i + 1) j r := by
        simp only [offersFrom_cons, hx, and_true]
      simp only [hoffers]
      rw [selectFrom, if_neg (by simp [hx.1]), if_neg (not_not.mpr hx.2)]
      by_cases hbetter : (sys.task b).priority < (sys.task x).priority
      · -- the guard is replaced by that of `x`, and `b` is beaten
        simp only [hbetter, if_true]
        obtain ⟨g', b', hsel, hbest⟩ := ih x (Nat.lt_succ_self i)
        have hx' := hbest.priority_le i x (.inl ⟨rfl, rfl⟩)
        refine ⟨g', b', hsel, hbest.insert (fun _ _ => Iff.rfl) (by omega) fun heq => ?_⟩
        omega
      · simp only [hbetter, if_false]
        obtain ⟨g', b', hsel, hbest⟩ := ih b (Nat.lt_succ_of_lt hg)
        have hb' := hbest.priority_le g b (.inl ⟨rfl, rfl⟩)
        refine ⟨g', b', hsel, hbest.insert (fun _ _ => or_left_comm) (by omega) fun heq => ?_⟩
        have hg' := hbest.earliest g b (.inl ⟨rfl, rfl⟩) (by omega)
        omega
    · obtain ⟨hsel, hoffers⟩ := selectFrom_skip rs (some (index, b)) hx
      simp only [hsel, hoffers]
      exact ih b (Nat.lt_succ_of_lt hg)

/-- **What the loop computes.**  Without candidates it finds nothing.  Otherwise its index is that
of the first candidate, and its guard is that of the best one. -/
theorem selectFrom_none (sys : System) (locks : Locks) (rs : List TaskRef) (i : ℕ) :
    (selectFrom sys locks rs i none = none ∧ ∀ j r, ¬ OffersFrom sys locks rs i j r) ∨
      ∃ index first g b, selectFrom sys locks rs i none = some (index, b) ∧
        OffersFrom sys locks rs i index first ∧
        (∀ j r, OffersFrom sys locks rs i j r → index ≤ j) ∧
        IsBest sys (OffersFrom sys locks rs i) g b := by
  induction rs generalizing i with
  | nil => exact .inl ⟨rfl, by rintro j r ⟨k, hk, -⟩; cases hk⟩
  | cons x rs ih =>
    -- the first task that is offered fixes the index; from there on only the best one is updated
    by_cases hx : locks.write i = true ∧ (sys.task x).state = .pending
    · have hoffers (j : ℕ) (r : TaskRef) : OffersFrom sys locks (x :: rs) i j r ↔
          (j = i ∧ r = x) ∨ OffersFrom sys locks rs (i + 1) j r := by
        simp only [offersFrom_cons, hx, and_true]
      obtain ⟨g', b', hsel, hbest⟩ :=
        selectFrom_some sys locks rs x i (Nat.lt_succ_self i)
      refine .inr ⟨i, x, g', b', ?_, (hoffers i x).mpr (.inl ⟨rfl, rfl⟩), fun j r h => h.le, ?_⟩
      · rw [selectFrom, if_neg (by simp [hx.1]), if_neg (not_not.mpr hx.2)]
        exact hsel
      · have heq : OffersFrom sys locks (x :: rs) i = fun j r =>
            (j = i ∧ r = x) ∨ OffersFrom sys locks rs (i + 1) j r := by
          funext j r
          exact propext (hoffers j r)
        rwa [heq]
    · obtain ⟨hsel, hoffers⟩ := selectFrom_skip rs none hx
      have heq : OffersFrom sys locks (x :: rs) i = OffersFrom sys locks rs (i + 1) := by
        funext j r
        exact propext (hoffers j r)
      rw [hsel, heq]
      exact ih (i + 1)

end Candidates

/-! ## The task that is marked and the task that is run -/

/-- The task at position `j` of `TASKS` is pending and can be locked. -/
def Offers (sys : System) (locks : Locks) (j : ℕ) (r : TaskRef) : Prop :=
  sys.tasks[j]? = some r ∧ locks.write j = true ∧ (sys.task r).state = .pending

theorem offersFrom_zero (sys : System) (locks : Locks) :
    OffersFrom sys locks sys.tasks 0 = Offers sys locks := by
  funext j r
  refine propext ⟨?_, fun ⟨hget, hlock, hstate⟩ => ⟨j, hget, (Nat.zero_add j).symm, hlock, hstate⟩⟩
  rintro ⟨k, hget, rfl, hlock, hstate⟩
  rw [Nat.zero_add] at hlock ⊢
  exact ⟨hget, hlock, hstate⟩

/-- What the selection is for: the task that becomes the current one is the best candidate, it is
the only one that is marked as running, and there is one if there is a candidate. -/
structure Selects (core clock : ℕ) (locks : Locks) (sys sys' : System) : Prop where
  none_iff : sys'.current core = none ↔ ∀ j r, ¬ Offers sys locks j r
  unmarked : sys'.current core = none → ∀ r, (sys'.task r).state = (sys.task r).state
  best : ∀ r, sys'.current core = some r → ∃ j, IsBest sys (Offers sys locks) j r
  marked : ∀ r, sys'.current core = some r → (sys'.task r).state = .running clock
  others : ∀ r, sys'.current core = some r → ∀ r', r' ≠ r → (sys'.task r').state =
    (sys.task r').state

section Selection

variable {sys : System} {core : ℕ} {locks : Locks} {pinfo : ProcInfo}

/-- The state after a selection with the given index and guard. -/
theorem pickTask_of_select (clock : ℕ) {index : ℕ} {first b : TaskRef}
    (hpinfo : sys.procs core = some pinfo) (hidle : pinfo.currentTask = none)
    (hget : sys.tasks[index]? = some first)
    (hsel : selectFrom sys locks sys.tasks 0 none = some (index, b)) :
    ∃ sys', pickTask core clock locks sys = .ok sys' ∧ sys'.current core = some first ∧
      (sys'.task b).state = .running clock ∧
      ∀ r, r ≠ b → (sys'.task r).state = (sys.task r).state := by
  have hgetD : sys.tasks.getD index b = first := by
    rw [List.getD_eq_getElem?_getD, hget, Option.getD_some]
  refine ⟨((sys.setTask b { sys.task b with state := .running clock }).arcClone first).setProc core
    { pinfo with currentTask := some first }, ?_, ?_, ?_, fun r hr => ?_⟩
  · simp only [pickTask, procInfo_eq_ok.mpr hpinfo, except_ok_bind, hidle, hsel]
    rw [← hgetD]
    rfl
  · exact System.setProc_current_self ..
  · simp [System.arcClone]
  · simp [System.arcClone, System.setTask_task_of_ne _ _ _ hr]

/-- **The selection of a task.**  When a core has no task, `tick` looks for one and returns.  The
task that it marks is the best one, but it runs the first one: a better task replaces the guard of
the best task so far, and not its index.  So the selection does what it is for exactly if no
candidate has a higher priority than the first one. -/
theorem selects_iff (clock : ℕ) (locks : Locks) (hpinfo : sys.procs core = some pinfo)
    (hidle : pinfo.currentTask = none) :
    ∃ sys', pickTask core clock locks sys = .ok sys' ∧
      (Selects core clock locks sys sys' ↔
        ∀ j r, Offers sys locks j r → (∀ j' r', Offers sys locks j' r' → j ≤ j') →
          ∀ j' r', Offers sys locks j' r' → (sys.task r').priority ≤ (sys.task r).priority) := by
  have hcur : sys.current core = none := (current_of_procs hpinfo).trans hidle
  have hloop := selectFrom_none sys locks sys.tasks 0
  rw [offersFrom_zero] at hloop
  rcases hloop with ⟨hsel, hempty⟩ | ⟨index, first, g, b, hsel, hfirst, hmin, hbest⟩
  · -- without a candidate nothing changes
    refine ⟨sys, ?_, fun _ j r hoffer => absurd hoffer (hempty j r), fun _ => ?_⟩
    · simp only [pickTask, procInfo_eq_ok.mpr hpinfo, except_ok_bind, hidle, hsel]
    · refine ⟨⟨fun _ => hempty, fun _ => hcur⟩, fun _ _ => rfl, ?_, ?_, ?_⟩ <;>
      · intro r hr
        rw [hcur] at hr
        cases hr
  · obtain ⟨sys', hpick, hcurrent, hmarked, hothers⟩ :=
      pickTask_of_select clock hpinfo hidle hfirst.1 hsel
    refine ⟨sys', hpick, fun h => ?_, fun hprio => ?_⟩
    · intro j r hr hj j' r' hr'
      obtain rfl : j = index := le_antisymm (hj index first hfirst) (hmin j r hr)
      obtain rfl : first = r := Option.some.inj (hfirst.1.symm.trans hr.1)
      obtain ⟨_, hbest'⟩ := h.best first hcurrent
      exact hbest'.priority_le j' r' hr'
    · -- the best task has the priority of the first one, so that it is the first one
      have heq : (sys.task first).priority = (sys.task b).priority :=
        le_antisymm (hbest.priority_le index first hfirst)
          (hprio index first hfirst hmin g b hbest.mem)
      obtain rfl : g = index :=
        le_antisymm (hbest.earliest index first hfirst heq) (hmin g b hbest.mem)
      obtain rfl : first = b := Option.some.inj (hfirst.1.symm.trans hbest.mem.1)
      have hone {r : TaskRef} (hr : sys'.current core = some r) : r = first :=
        Option.some.inj (hr.symm.trans hcurrent)
      refine ⟨⟨fun h => ?_, fun h => absurd hfirst (h g first)⟩, fun h => ?_, fun r hr => ?_,
        fun r hr => ?_, fun r hr => ?_⟩
      · rw [hcurrent] at h
        cases h
      · rw [hcurrent] at h
        cases h
      · exact ⟨g, hone hr ▸ hbest⟩
      · rw [hone hr]
        exact hmarked
      · rw [hone hr]
        exact hothers

end Selection

/-- Two pending tasks, of priorities 0 and 1, and one core without a task. -/
def twoPriorities : System :=
  { bootSystem with
    arena := fun r => ⟨1, ⟨r + 1, r, default, .new, .pending⟩⟩
    nextRef := 2
    tasks := [0, 1]
    idCount := 2 }

/-- The task of priority 1 is marked as running, and the task of priority 0 is the one that runs. -/
theorem twoPriorities_mismatch : ∃ sys',
    pickTask 0 5 ⟨true, fun _ => true⟩ twoPriorities = .ok sys' ∧ sys'.current 0 = some 0 ∧
      (sys'.task 0).state = .pending ∧ (sys'.task 1).state = .running 5 ∧
      ¬ Selects 0 5 ⟨true, fun _ => true⟩ twoPriorities sys' := by
  refine ⟨_, rfl, rfl, rfl, rfl, fun h => ?_⟩
  have hmarked := h.marked 0 rfl
  cases hmarked

/-- In the other order the better task is also the first one. -/
theorem selects_twoPriorities : ∃ sys', pickTask 0 5 ⟨true, fun _ => true⟩
    { twoPriorities with tasks := [1, 0] } = .ok sys' ∧ sys'.current 0 = some 1 ∧
      Selects 0 5 ⟨true, fun _ => true⟩ { twoPriorities with tasks := [1, 0] } sys' := by
  have hpinfo : { twoPriorities with tasks := [1, 0] }.procs 0 = some ⟨0, none, 1000, none⟩ := rfl
  obtain ⟨sys', hpick, hiff⟩ := selects_iff 5 ⟨true, fun _ => true⟩ hpinfo rfl
  refine ⟨sys', hpick, ?_, hiff.mpr fun j r hr hfirst j' r' hr' => ?_⟩
  · cases hpick
    rfl
  · have hzero : j = 0 := Nat.le_zero.mp (hfirst 0 1 ⟨rfl, rfl, rfl⟩)
    subst hzero
    obtain rfl : 1 = r := Option.some.inj hr.1
    have hmem : r' ∈ [1, 0] := List.mem_of_getElem? hr'.1
    -- the priority of each of the two tasks is its reference
    change r' ≤ 1
    rcases List.mem_pair.mp hmem with rfl | rfl
    · decide
    · decide

/-! ## The end of a time slice -/

section Slice

variable {env : Env} {sys : System} {core : ℕ} {procState : TaskProcState} {locks : Locks}
  {pinfo : ProcInfo} {r : TaskRef}

theorem procs_ticked :
    (ticked core procState pinfo sys).procs core = some { pinfo with tickMiss := 0 } := by
  unfold ticked saveState
  split
  · exact System.setProc_procs_self ..
  · exact System.setProc_procs_self ..

/-- The first part of a tick, when there are tasks. -/
theorem tickBegin_eq (hpinfo : sys.procs core = some pinfo) (htasks : sys.tasks ≠ []) :
    tickBegin env core procState sys = .pure (ticked core procState pinfo sys) := by
  have htasks' : (ticked core procState pinfo sys).tasks ≠ [] := by
    rwa [(SameSchedule.ticked hpinfo procState).tasks]
  simp only [tickBegin, procInfo_eq_ok.mpr hpinfo, liftM_ok, mk_pure_bind]
  change startInit env core (ticked core procState pinfo sys) = _
  rw [startInit, if_neg htasks']
  rfl

/-- The second part, while the time of the current task lasts. -/
theorem releaseExpired_eq_of_not (hpinfo : sys.procs core = some pinfo)
    (hcur : pinfo.currentTask = some r) (hexp : expired env sys r = .ok false) :
    releaseExpired env core sys = .pure sys := by
  simp only [releaseExpired, procInfo_eq_ok.mpr hpinfo, liftM_ok, mk_pure_bind, hcur, hexp]
  rfl

/-- The second part, when the time is up: the list still has a reference to the task. -/
theorem releaseExpired_eq (h : Consistent sys) (hpinfo : sys.procs core = some pinfo)
    (hcur : pinfo.currentTask = some r) (hexp : expired env sys r = .ok true) :
    releaseExpired env core sys = .pure ((letGo core pinfo r sys).setStrong r 1) := by
  have hstrong : ((letGo core pinfo r sys).arena r).strong = 2 := by
    rw [letGo, System.setTask_strong]
    exact h.strong core r ((current_of_procs hpinfo).trans hcur)
  simp only [releaseExpired, procInfo_eq_ok.mpr hpinfo, liftM_ok, mk_pure_bind, hcur, hexp, if_true]
  change arcDrop r (letGo core pinfo r sys) = _
  rw [arcDrop, hstrong]
  rfl

/-- A tick that leaves the core with its task. -/
theorem tick_eq_of_not_expired (hpinfo : sys.procs core = some pinfo)
    (hobtains : pinfo.obtains locks = true) (hcur : pinfo.currentTask = some r)
    (htasks : sys.tasks ≠ [])
    (hexp : expired env (ticked core procState pinfo sys) r = .ok false) :
    tick env core procState locks sys = .pure (ticked core procState pinfo sys) := by
  have hpick : pickTask core sys.clock locks (ticked core procState pinfo sys) =
      .ok (ticked core procState pinfo sys) := by
    simp only [pickTask, procInfo_eq_ok.mpr procs_ticked, except_ok_bind, hcur]
  simp only [tick, procInfo_eq_ok.mpr hpinfo, liftM_ok, mk_pure_bind, hobtains, if_true, tickLocked,
    tickBegin_eq hpinfo htasks, releaseExpired_eq_of_not procs_ticked hcur hexp, hpick]

/-- The current task has been released, and no other one has been picked yet. -/
def sliceEnded (core : ℕ) (procState : TaskProcState) (pinfo : ProcInfo) (r : TaskRef)
    (sys : System) :
    System :=
  (letGo core { pinfo with tickMiss := 0 } r (ticked core procState pinfo sys)).setStrong r 1

/-- A tick that releases the task of the core. -/
theorem tick_eq_of_expired (h : Consistent sys) (hpinfo : sys.procs core = some pinfo)
    (hobtains : pinfo.obtains locks = true) (hcur : pinfo.currentTask = some r)
    (hexp : expired env (ticked core procState pinfo sys) r = .ok true) :
    tick env core procState locks sys =
      liftM (pickTask core sys.clock locks (sliceEnded core procState pinfo r sys)) := by
  have hmem := (h.current core r ((current_of_procs hpinfo).trans hcur)).1
  have h' := h.same (SameSchedule.ticked hpinfo procState)
  simp only [tick, procInfo_eq_ok.mpr hpinfo, liftM_ok, mk_pure_bind, hobtains, if_true, tickLocked,
    tickBegin_eq hpinfo (List.ne_nil_of_mem hmem), releaseExpired_eq h' procs_ticked hcur hexp]
  rfl

theorem sliceEnded_tasks (hpinfo : sys.procs core = some pinfo) :
    (sliceEnded core procState pinfo r sys).tasks = sys.tasks :=
  (SameSchedule.ticked hpinfo procState).tasks

theorem sliceEnded_procs : (sliceEnded core procState pinfo r sys).procs core =
    some { pinfo with tickMiss := 0, currentTask := none } :=
  System.setProc_procs_self ..

theorem sliceEnded_state_self : ((sliceEnded core procState pinfo r sys).task r).state =
    .pending := by
  simp [sliceEnded, letGo]

theorem sliceEnded_state_of_ne (hpinfo : sys.procs core = some pinfo) {r' : TaskRef} (hr : r' ≠ r) :
    ((sliceEnded core procState pinfo r sys).task r').state = (sys.task r').state := by
  simp only [sliceEnded, letGo, System.setStrong_task, System.setTask_task_of_ne _ _ _ hr]
  exact (SameSchedule.ticked hpinfo procState).state r'

/-- The candidates are the pending tasks, and the one that has just been released. -/
theorem offers_sliceEnded (hpinfo : sys.procs core = some pinfo) {j : ℕ} {r' : TaskRef} :
    Offers (sliceEnded core procState pinfo r sys) locks j r' ↔
      sys.tasks[j]? = some r' ∧ locks.write j = true ∧
        (r' = r ∨ (sys.task r').state = .pending) := by
  rw [Offers, sliceEnded_tasks hpinfo]
  refine and_congr_right fun _ => and_congr_right fun _ => ?_
  by_cases hr : r' = r
  · simp [hr, sliceEnded_state_self]
  · simp [hr, sliceEnded_state_of_ne hpinfo hr]

end Slice

section HandOver

variable {env : Env} {w w' : World} {es : List Event} {core : ℕ} {procState : TaskProcState}
  {locks : Locks} {pinfo : ProcInfo} {T : TaskRef}

/-- A run with its bookkeeping left out. -/
theorem Run.world {G : Tracked → Event → Prop} {t t' : Tracked}
    (hrun : Run (Guarded (TrackedStep env) G) t es t') :
    Run (Step env) t.toWorld es t'.toWorld := by
  induction hrun with
  | nil => exact .nil _
  | snoc _ hlast ih => exact ih.snoc hlast.1.1

theorem Run.keeps_consistent (hbooted : Booted w) (hrun : Run (Step env) w es w') :
    Consistent w'.sys ∧ w'.pmm.Sound := by
  refine hrun.preserves (I := fun w' => Consistent w'.sys ∧ w'.pmm.Sound)
    ⟨consistent_of_idle hbooted.tasks hbooted.idle, hbooted.sound⟩ ?_
  rintro w₁ e w₂ ⟨h, hsound⟩ hstep
  obtain ⟨hcode, hsound', -⟩ := hstep.returns hsound
  exact ⟨(code_consistent h hcode).1, hsound'⟩

/-- The tick that ends a time slice returns, and the core goes to the first task in the list that is
pending, or has just been released, and that can be locked. -/
theorem tick_of_expired (hcons : Consistent w'.sys) (hpinfo : w'.sys.procs core = some pinfo)
    (hobtains : pinfo.obtains locks = true) (hcur : pinfo.currentTask = some T)
    (hexp : expired env (ticked core procState pinfo w'.sys) T = .ok true) {i : ℕ} {r : TaskRef}
    (hr : Offers (sliceEnded core procState pinfo T w'.sys) locks i r) :
    ∃ w'' index first, Step env w' (.tick core procState locks) w'' ∧
      w''.sys.current core = some first ∧
      Offers (sliceEnded core procState pinfo T w'.sys) locks index first ∧
      ∀ j r, Offers (sliceEnded core procState pinfo T w'.sys) locks j r → index ≤ j := by
  have hloop := selectFrom_none (sliceEnded core procState pinfo T w'.sys) locks
    (sliceEnded core procState pinfo T w'.sys).tasks 0
  rw [offersFrom_zero] at hloop
  rcases hloop with ⟨-, hempty⟩ | ⟨index, first, g, b, hsel, hfirst, hmin, -⟩
  · exact absurd hr (hempty i r)
  obtain ⟨sys', hpick, hcurrent, -⟩ :=
    pickTask_of_select w'.sys.clock sliceEnded_procs rfl hfirst.1 hsel
  refine ⟨⟨sys', w'.pmm⟩, index, first, ?_, hcurrent, hfirst, hmin⟩
  simp only [Step, Event.code, tick_eq_of_expired hcons hpinfo hobtains hcur hexp, run_lift, hpick,
    except_ok_bind]

/-- **The end of a time slice.**  After any run, let a tick obtain the lock on `TASKS` on a core
whose task `T` has used up its time, while another task is pending and all other tasks can be
locked.  The tick returns, and the core goes to another task exactly if a pending task stands before
`T` in the list, or `T` cannot be locked: the loop takes the first candidate, and `T` is pending
again by then. -/
theorem hands_over_iff (hbooted : Booted w) (hrun : Run (Step env) w es w')
    (hpinfo : w'.sys.procs core = some pinfo) (hobtains : pinfo.obtains locks = true)
    (hcur : pinfo.currentTask = some T)
    (hexp : expired env (ticked core procState pinfo w'.sys) T = .ok true)
    (hlock : ∀ i r, w'.sys.tasks[i]? = some r → r ≠ T → locks.write i = true)
    (hother : ∃ r ∈ w'.sys.tasks, r ≠ T ∧ (w'.sys.task r).state = .pending ∧
      (w'.sys.task T).priority ≤ (w'.sys.task r).priority) :
    ∃ w'', Step env w' (.tick core procState locks) w'' ∧
      ((∃ r, w''.sys.current core = some r ∧ r ≠ T) ↔
        ∀ i, w'.sys.tasks[i]? = some T → locks.write i = true →
          ∃ j < i, ∃ r, w'.sys.tasks[j]? = some r ∧ (w'.sys.task r).state = .pending) := by
  obtain ⟨hcons, -⟩ := Run.keeps_consistent hbooted hrun
  have hoffers {j : ℕ} {r : TaskRef} : Offers (sliceEnded core procState pinfo T w'.sys) locks j r ↔
      w'.sys.tasks[j]? = some r ∧ locks.write j = true ∧
        (r = T ∨ (w'.sys.task r).state = .pending) := offers_sliceEnded hpinfo
  -- the other pending task is a candidate
  obtain ⟨r₀, hr₀, hne₀, hpending₀, -⟩ := hother
  obtain ⟨i₀, hi₀⟩ := List.getElem?_of_mem hr₀
  obtain ⟨w'', index, first, hstep, hcurrent, hfirst, hmin⟩ := tick_of_expired hcons hpinfo hobtains
    hcur hexp (hoffers.mpr ⟨hi₀, hlock i₀ r₀ hi₀ hne₀, .inr hpending₀⟩)
  obtain ⟨hget, hwrite, hstate⟩ := hoffers.mp hfirst
  refine ⟨w'', hstep, ?_, ?_⟩
  · rintro ⟨r, hr, hne⟩ i hi hwrite
    obtain rfl : first = r := Option.some.inj (hcurrent.symm.trans hr)
    -- `T` is a candidate itself, so that the first one stands before it
    have hle : index ≤ i := hmin i T (hoffers.mpr ⟨hi, hwrite, .inl rfl⟩)
    have hlt : index ≠ i := by
      rintro rfl
      exact hne (Option.some.inj (hget.symm.trans hi))
    exact ⟨index, by omega, first, hget, hstate.resolve_left hne⟩
  · intro hbefore
    refine ⟨first, hcurrent, ?_⟩
    rintro rfl
    obtain ⟨j, hj, r, hr, hpending⟩ := hbefore index hget hwrite
    -- a pending task is not the one that was running
    have hne : r ≠ first := by
      rintro rfl
      obtain ⟨-, since, hrunning⟩ := hcons.current core r ((current_of_procs hpinfo).trans hcur)
      rw [hpending] at hrunning
      cases hrunning
    have hle := hmin j r (hoffers.mpr ⟨hr, hlock j r hr hne, .inr hpending⟩)
    omega

end HandOver

/-! ### Two tasks and one core -/

section TwoTasks

variable {sys : System} {n : ℕ}

/-- The first of two tasks has been running since the start, and the clock is at `n`. -/
structure Waiting (n : ℕ) (sys : System) : Prop where
  procs : sys.procs 0 = some (coreInfo (some 0) none)
  tasks : sys.tasks = [0, 1]
  clock : sys.clock = n
  first : (sys.task 0).state = .running 0
  second : (sys.task 1).state = .pending
  priority : ∀ r ∈ [0, 1], (sys.task r).priority = 0

theorem waiting_firstPicked (vm : Vm) (mapA mapB : MemoryMap) :
    Waiting 1 (firstPicked vm mapA mapB) :=
  ⟨rfl, rfl, rfl, rfl, rfl, by simp only [List.mem_pair]; rintro r (rfl | rfl) <;> rfl⟩

/-- A time slice has ten ticks. -/
theorem Waiting.expired (h : Waiting n sys) (hn : n + 1 < 2 ^ 64) :
    expired bareEnv (ticked 0 default (coreInfo (some 0) none) sys) 0 =
      .ok (decide (10 ≤ n + 1)) := by
  have hsame := SameSchedule.ticked h.procs default
  have hstate := (hsame.state 0).trans h.first
  have hclock : (ticked 0 default (coreInfo (some 0) none) sys).clock = sys.clock + 1 :=
    clock_ticked default (by rwa [h.clock])
  have hprio := (hsame.priority 0).trans (h.priority 0 (by simp))
  simp only [Proc.expired, hstate, hclock, h.clock, lifeExpectancy, hprio]
  rfl

theorem Waiting.tick (pmm : PhysicalFrameAllocator) (h : Waiting n sys) (hn : n + 1 < 10) :
    Step bareEnv ⟨sys, pmm⟩ tickAll ⟨ticked 0 default (coreInfo (some 0) none) sys, pmm⟩ ∧
      Waiting (n + 1) (ticked 0 default (coreInfo (some 0) none) sys) := by
  have hexp := h.expired (by omega)
  rw [decide_eq_false (by omega)] at hexp
  have hsame := SameSchedule.ticked h.procs default
  have hobtains : (coreInfo (some 0) none).obtains ⟨true, fun _ => true⟩ = true := rfl
  constructor
  · have htick := tick_eq_of_not_expired h.procs hobtains rfl (by simp [h.tasks]) hexp
    simp only [Step, Event.code, tickAll, htick]
    rfl
  · refine ⟨procs_ticked, hsame.tasks.trans h.tasks, ?_, (hsame.state 0).trans h.first,
      (hsame.state 1).trans h.second, fun r hr => (hsame.priority r).trans (h.priority r hr)⟩
    rw [clock_ticked default (by rw [h.clock]; omega), h.clock]

/-- The first task goes on until the clock is at 9. -/
theorem Waiting.run (pmm : PhysicalFrameAllocator) (h : Waiting 1 sys) (hn : n ≤ 8) :
    ∃ sys', Run (Step bareEnv) ⟨sys, pmm⟩ (List.replicate n tickAll) ⟨sys', pmm⟩ ∧
      Waiting (n + 1) sys' := by
  induction n with
  | zero => exact ⟨sys, .nil _, h⟩
  | succ n ih =>
    obtain ⟨sys', hrun, hwait⟩ := ih (by omega)
    obtain ⟨hstep, hwait'⟩ := hwait.tick pmm (by omega)
    refine ⟨_, ?_, hwait'⟩
    rw [List.replicate_succ']
    exact hrun.snoc hstep

/-- A reachable state in which the next tick ends the time slice of the first task. -/
theorem slice_end_reachable : ∃ es w, Run (Step bareEnv) ⟨bootSystem, freshPmm⟩ es w ∧
    Waiting 9 w.sys := by
  obtain ⟨vm, mapA, mapB, pmm, hrun, -⟩ :=
    first_picked_run (G := fun _ _ => True) fun _ _ _ _ => trivial
  obtain ⟨sys', hrun', hwait⟩ := (waiting_firstPicked vm mapA mapB).run pmm (le_refl 8)
  exact ⟨_, ⟨sys', pmm⟩, (Run.world hrun).append hrun', hwait⟩

theorem Waiting.expired_nine (h : Waiting 9 sys) :
    Proc.expired bareEnv (ticked 0 default (coreInfo (some 0) none) sys) 0 = .ok true := by
  have hexp := h.expired (by decide)
  rwa [decide_eq_true (by decide)] at hexp

/-- The other task is pending, and all tasks can be locked.  Still the first task is released and
picked again. -/
theorem slice_end_same_task : ∃ es w w', Booted ⟨bootSystem, freshPmm⟩ ∧
    Run (Step bareEnv) ⟨bootSystem, freshPmm⟩ es w ∧ w.sys.procs 0 = some (coreInfo (some 0) none) ∧
    Proc.expired bareEnv (ticked 0 default (coreInfo (some 0) none) w.sys) 0 = .ok true ∧
    (1 ∈ w.sys.tasks ∧ (w.sys.task 1).state = .pending ∧
      (w.sys.task 0).priority ≤ (w.sys.task 1).priority) ∧
    Step bareEnv w tickAll w' ∧ w'.sys.current 0 = some 0 := by
  obtain ⟨es, w, hrun, hwait⟩ := slice_end_reachable
  obtain ⟨hcons, -⟩ := Run.keeps_consistent booted_bootSystem hrun
  have hobtains : (coreInfo (some 0) none).obtains ⟨true, fun _ => true⟩ = true := rfl
  have hoffer : Offers (sliceEnded 0 default (coreInfo (some 0) none) 0 w.sys)
      ⟨true, fun _ => true⟩ 0 0 :=
    (offers_sliceEnded hwait.procs).mpr ⟨by rw [hwait.tasks]; rfl, rfl, .inl rfl⟩
  obtain ⟨w', index, first, hstep, hcurrent, hfirst, hmin⟩ :=
    tick_of_expired hcons hwait.procs hobtains rfl hwait.expired_nine hoffer
  -- the first task in the list is a candidate
  obtain rfl : index = 0 := Nat.le_zero.mp (hmin 0 0 hoffer)
  obtain rfl : first = 0 := Option.some.inj (hfirst.1.symm.trans hoffer.1)
  refine ⟨es, w, w', booted_bootSystem, hrun, hwait.procs, hwait.expired_nine,
    ⟨by simp [hwait.tasks], hwait.second, ?_⟩, hstep, hcurrent⟩
  rw [hwait.priority 0 (by simp), hwait.priority 1 (by simp)]

/-- If the first task cannot be locked, the core goes to the second one. -/
theorem hands_over_locked : ∃ es w w' r, Run (Step bareEnv) ⟨bootSystem, freshPmm⟩ es w ∧
    Step bareEnv w (.tick 0 default ⟨true, fun i => i ≠ 0⟩) w' ∧
    w'.sys.current 0 = some r ∧ r ≠ 0 := by
  obtain ⟨es, w, hrun, hwait⟩ := slice_end_reachable
  have hobtains : (coreInfo (some 0) none).obtains ⟨true, fun i => i ≠ 0⟩ = true := rfl
  obtain ⟨w', hstep, hiff⟩ := hands_over_iff booted_bootSystem hrun hwait.procs hobtains rfl
    hwait.expired_nine
    (by
      intro i r hr hne
      rw [hwait.tasks] at hr
      have hi : i ≠ 0 := by
        rintro rfl
        exact hne (Option.some.inj hr).symm
      simpa using hi)
    ⟨1, by simp [hwait.tasks], by decide, hwait.second, by
      rw [hwait.priority 0 (by simp), hwait.priority 1 (by simp)]⟩
  -- the current task is the one that cannot be locked
  obtain ⟨r, hr, hne⟩ := hiff.mpr (by
    intro i hi hwrite
    rw [hwait.tasks] at hi
    match i, hi, hwrite with
    | 0, _, hwrite => cases hwrite
    | 1, hi, _ => cases hi
    | i + 2, hi, _ => cases hi)
  exact ⟨es, w, w', r, hrun, hstep, hr, hne⟩

end TwoTasks

end HeliumOS.Proc
