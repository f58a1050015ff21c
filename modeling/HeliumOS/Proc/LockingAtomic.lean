import HeliumOS.Proc.Arrival
import HeliumOS.Proc.Contents
import HeliumOS.Proc.LockingInvariant

/-!
# Steps of One Piece Are Interleavings

The model of the scheduler with `tick`, `Spawn` and `exit_current` in one piece, next to the model
that is cut at the locks.  When every lock is free, a step of the first is a run of the second: one
core goes through its code, and the others stay where they are.

- **Translation**: `ofSystem` forgets memory and reference counts; it commutes with the operations.
- **Reachability**: a single core in the scheduler is given every lock, so that it goes through.
- **The loops**: `scan_reaches` and `find_reaches`, by induction over the rest of the list.
- **Runs**: `atomic_runs_interleave`.
-/

namespace HeliumOS.Proc.Locking

open HeliumOS.Lib HeliumOS.Lib.AllocProg HeliumOS.Mem HeliumOS.Elf

/-! ## Translation -/

/-- The scheduler between two steps of one piece. -/
def ofSystem (sys : System) : State where
  tasks := sys.tasks
  task := sys.task
  nextRef := sys.nextRef
  clock := sys.clock
  idCount := sys.idCount
  current := sys.current
  tickMiss c := (sys.procs c).elim 0 ProcInfo.tickMiss
  pc _ := .outside

section Translation

variable {sys : System} {core : ℕ} {pinfo : ProcInfo}

theorem ofSystem_vm (vm : Virt.Vm) : ofSystem { sys with vm } = ofSystem sys := rfl

theorem ofSystem_setStrong (r : TaskRef) (n : ℕ) :
    ofSystem (sys.setStrong r n) = ofSystem sys := by
  simp only [ofSystem, System.setStrong_task]
  rfl

theorem ofSystem_setTask (r : TaskRef) (t : Task) :
    ofSystem (sys.setTask r t) = (ofSystem sys).setTask r t := by
  have htask : (sys.setTask r t).task = Function.update sys.task r t := by
    funext r'
    by_cases hr : r' = r
    · rw [hr, System.setTask_task_self, Function.update_self]
    · rw [System.setTask_task_of_ne _ _ _ hr, Function.update_of_ne hr]
  simp only [ofSystem, htask]
  rfl

theorem ofSystem_setProc :
    ofSystem (sys.setProc core pinfo) =
      ((ofSystem sys).setCurrent core pinfo.currentTask).setTickMiss core pinfo.tickMiss := by
  have hcurrent : (sys.setProc core pinfo).current =
      Function.update sys.current core pinfo.currentTask := by
    funext c
    by_cases hc : c = core
    · rw [hc, System.setProc_current_self, Function.update_self]
    · rw [System.setProc_current_of_ne _ _ _ hc, Function.update_of_ne hc]
  have hmiss : (fun c => ((sys.setProc core pinfo).procs c).elim 0 ProcInfo.tickMiss) =
      Function.update (fun c => (sys.procs c).elim 0 ProcInfo.tickMiss) core pinfo.tickMiss := by
    funext c
    by_cases hc : c = core
    · rw [hc, System.setProc_procs_self, Function.update_self]
      rfl
    · rw [System.setProc_procs_of_ne _ _ _ hc, Function.update_of_ne hc]
  simp only [ofSystem, hcurrent, hmiss]
  rfl

theorem ofSystem_push (procstate : TaskProcState) (memoryMap : MemoryMap) :
    ofSystem (sys.push procstate memoryMap) = (ofSystem sys).push procstate memoryMap := by
  have htask : (sys.push procstate memoryMap).task = Function.update sys.task sys.nextRef
      ⟨sys.idCount + 1, 0, procstate, memoryMap, .pending⟩ := by
    funext r
    by_cases hr : r = sys.nextRef
    · rw [hr, System.push_task_self, Function.update_self]
    · rw [System.push_task_of_ne _ _ _ hr, Function.update_of_ne hr]
  simp only [ofSystem, htask]
  rfl

/-- Writing back what is there. -/
theorem setCurrent_self (S : State) (c : ℕ) : S.setCurrent c (S.current c) = S := by
  simp [State.setCurrent, Function.update_eq_self]

theorem setTickMiss_self (S : State) (c : ℕ) : S.setTickMiss c (S.tickMiss c) = S := by
  simp [State.setTickMiss, Function.update_eq_self]

theorem ofSystem_tickMiss (hpinfo : sys.procs core = some pinfo) :
    (ofSystem sys).tickMiss core = pinfo.tickMiss := by
  simp [ofSystem, hpinfo]

/-- The current task of a core is set. -/
theorem ofSystem_setCurrent (hpinfo : sys.procs core = some pinfo) (o : Option TaskRef) :
    ofSystem (sys.setProc core { pinfo with currentTask := o }) =
      (ofSystem sys).setCurrent core o := by
  rw [ofSystem_setProc]
  have hmiss : ((ofSystem sys).setCurrent core o).tickMiss core = pinfo.tickMiss :=
    ofSystem_tickMiss hpinfo
  simp only
  rw [← hmiss, setTickMiss_self]

/-- The misses of a core are set. -/
theorem ofSystem_setTickMiss (hpinfo : sys.procs core = some pinfo) (n : ℕ) :
    ofSystem (sys.setProc core { pinfo with tickMiss := n }) =
      (ofSystem sys).setTickMiss core n := by
  have hcur : (ofSystem sys).current core = pinfo.currentTask := current_of_procs hpinfo
  rw [ofSystem_setProc]
  simp only
  rw [← hcur, setCurrent_self]

/-- What the scheduler does not look at. -/
theorem ofSystem_setProc_same (hpinfo : sys.procs core = some pinfo) {pinfo' : ProcInfo}
    (hcur : pinfo'.currentTask = pinfo.currentTask) (hmiss : pinfo'.tickMiss = pinfo.tickMiss) :
    ofSystem (sys.setProc core pinfo') = ofSystem sys := by
  have hcurrent : (ofSystem sys).current core = pinfo.currentTask := current_of_procs hpinfo
  rw [ofSystem_setProc, hcur, hmiss, ← hcurrent, setCurrent_self, ← ofSystem_tickMiss hpinfo,
    setTickMiss_self]

end Translation

/-! ## Reachability -/

/-- Some run leads from one state to the other. -/
def Reaches (env : Env) (S S' : State) : Prop := ∃ cs, Run (Step env) S cs S'

section Reaches

variable {env : Env} {S S' S'' : State} {c : ℕ} {pc pc' : Pc}

theorem Reaches.refl (S : State) : Reaches env S S := ⟨[], .nil S⟩

theorem Reaches.trans (h : Reaches env S S') (h' : Reaches env S' S'') : Reaches env S S'' := by
  obtain ⟨cs, hrun⟩ := h
  obtain ⟨cs', hrun'⟩ := h'
  exact ⟨cs ++ cs', hrun.append hrun'⟩

theorem Reaches.one (h : Step env S c S') : Reaches env S S' := ⟨[c], .single h⟩

/-- A step that only moves on. -/
theorem Reaches.goto (h : Step env (S.goto c pc) c ((S.goto c pc).goto c pc')) :
    Reaches env (S.goto c pc) (S.goto c pc') := by
  rw [goto_goto] at h
  exact .one h

end Reaches

/-! ## The parts of a tick -/

section Tick

variable {M F F' : Set PhysFrame} {env : Env} {sys sys' : System} {core : ℕ} {pinfo : ProcInfo}

theorem ofSystem_outside (c : ℕ) : (ofSystem sys).pc c = .outside := rfl

/-- The lock on `TASKS` is obtained. -/
theorem enter_reaches : Reaches env (ofSystem sys) ((ofSystem sys).goto core .granted) := by
  by_cases hmiss : (ofSystem sys).tickMiss core ≤ MAX_TICK_MISS
  · exact .one (.tickTries rfl hmiss (grants_tasks_idle ofSystem_outside _))
  · exact (Reaches.one (.tickWaits rfl (Nat.lt_of_not_le hmiss))).trans
      (.goto (.tickGets State.goto_pc_self (grants_tasks ofSystem_outside rfl _)))

/-- The tick is counted. -/
def counted (core : ℕ) (pinfo : ProcInfo) (sys : System) : System :=
  { sys.setProc core { pinfo with tickMiss := 0 } with clock := (sys.clock + 1) % 2 ^ 64 }

theorem ticked_eq (procState : TaskProcState) :
    ticked core procState pinfo sys = saveState core procState (counted core pinfo sys) := rfl

/-- The tick is counted, and the registers are saved. -/
theorem save_reaches (hpinfo : sys.procs core = some pinfo) (procState : TaskProcState) :
    Reaches env (ofSystem sys)
      ((ofSystem (ticked core procState pinfo sys)).goto core (.counts sys.clock)) := by
  have hcount : (ofSystem sys).count core = ofSystem (counted core pinfo sys) := by
    rw [State.count, ← ofSystem_setTickMiss hpinfo]
    rfl
  rw [ticked_eq]
  generalize counted core pinfo sys = sys₁ at hcount ⊢
  have hcounts : Step env ((ofSystem sys).goto core .granted) core
      ((ofSystem sys₁).goto core (.saving sys.clock)) := by
    have hstep : Step env ((ofSystem sys).goto core .granted) core
        ((((ofSystem sys).goto core .granted).count core).goto core (.saving sys.clock)) :=
      .counts State.goto_pc_self
    rwa [count_goto, hcount] at hstep
  refine (enter_reaches.trans (.one hcounts)).trans ?_
  -- with a current task, it is locked in between
  cases hcur : sys₁.current core with
  | none =>
    have hsaved : saveState core procState sys₁ = sys₁ := by simp only [saveState, hcur]
    rw [hsaved]
    exact .goto (.savesNothing State.goto_pc_self hcur)
  | some r =>
    have hsaved : ofSystem (saveState core procState sys₁) =
        (ofSystem sys₁).setRegisters r procState := by
      simp only [saveState, hcur, ofSystem_setTask]
      rfl
    have hsave : Step env ((ofSystem sys₁).goto core (.saves sys.clock r)) core
        ((((ofSystem sys₁).goto core (.saves sys.clock r)).setRegisters r procState).goto core
          (.counts sys.clock)) := .saves procState State.goto_pc_self
    rw [State.setRegisters, setTask_goto] at hsave
    rw [hsaved]
    refine Reaches.trans (.goto (.locksSaved State.goto_pc_self hcur ?_)) (.one hsave)
    exact grants_task ofSystem_outside (by simp [Pc.guards]) _

/-- The first part of a tick, up to `take_if`: the core has the lock, has counted the tick and saved
the registers, and has started init if there was no task. -/
theorem begin_reaches {procState : TaskProcState}
    (h : Returns M (tickBegin env core procState sys) F sys' F') :
    Reaches env (ofSystem sys) ((ofSystem sys').goto core (.checks sys.clock)) := by
  obtain ⟨pinfo, hpinfo, hcases⟩ := tickBegin_cases h
  have htasks := (SameSchedule.ticked hpinfo procState).tasks
  refine (save_reaches hpinfo procState).trans ?_
  set sys₁ := ticked core procState pinfo sys
  rcases hcases with ⟨hne, rfl, -⟩ | ⟨hempty, elf, id, hinit, hexec⟩
  · exact .goto (.hasTasks State.goto_pc_self (by simpa [ofSystem, htasks] using hne))
  · -- init is started under the lock of a writer
    obtain ⟨map, vm, rfl, -⟩ := exec_fills hexec
    rw [ofSystem_push, ofSystem_vm]
    have hup : Reaches env ((ofSystem sys₁).goto core (.counts sys.clock))
        ((ofSystem sys₁).goto core (.upgrades sys.clock)) :=
      .goto (.noTasks State.goto_pc_self (by simpa [ofSystem, htasks] using hempty))
    have hwrite : Reaches env ((ofSystem sys₁).goto core (.upgrades sys.clock))
        ((ofSystem sys₁).goto core (.starts sys.clock)) :=
      .goto (.upgrades State.goto_pc_self (alone_tasks ofSystem_outside))
    have hpush : Step env ((ofSystem sys₁).goto core (.starts sys.clock)) core
        ((((ofSystem sys₁).goto core (.starts sys.clock)).push (.new elf.header.entrypoint)
          map).goto
          core (.checks sys.clock)) := .starts _ State.goto_pc_self hinit
    rw [push_goto] at hpush
    exact (hup.trans hwrite).trans (.one hpush)

/-- What the closure of `take_if` computes. -/
theorem expired_eq_ok {r : TaskRef} {b : Bool} (h : expired env sys r = .ok b) :
    ∃ since life, (sys.task r).state = .running since ∧ since ≤ sys.clock ∧
      lifeExpectancy env (sys.task r) = .ok life ∧ b = decide (life ≤ sys.clock - since) := by
  unfold expired at h
  split at h
  · cases h
  · next since hstate =>
    obtain ⟨elapsed, helapsed, h⟩ := except_bind_eq_ok.mp h
    obtain ⟨life, hlife, h⟩ := except_bind_eq_ok.mp h
    obtain ⟨hle, rfl⟩ := checkedSub_eq_ok.mp helapsed
    exact ⟨since, life, hstate, hle, hlife, (Except.ok.inj h).symm⟩

/-- `release_expired` with what the closure says. -/
theorem releaseExpired_eq_ok (hcons : Consistent sys)
    (h : Returns M (releaseExpired env core sys) F sys' F') :
    ∃ pinfo, sys.procs core = some pinfo ∧
      ((pinfo.currentTask = none ∧ sys' = sys) ∨ ∃ r, pinfo.currentTask = some r ∧
        ((expired env sys r = .ok false ∧ sys' = sys) ∨ (expired env sys r = .ok true ∧
          sys' = (letGo core pinfo r sys).setStrong r 1))) := by
  simp only [releaseExpired, returns_bind, returns_lift, procInfo_eq_ok] at h
  obtain ⟨pinfo, _, ⟨hpinfo, rfl⟩, h⟩ := h
  refine ⟨pinfo, hpinfo, ?_⟩
  split at h
  · next hnone => exact .inl ⟨hnone, (returns_pure.mp h).1⟩
  · next r hr =>
    simp only [returns_bind, returns_lift] at h
    obtain ⟨b, _, ⟨hexp, rfl⟩, h⟩ := h
    refine .inr ⟨r, hr, ?_⟩
    cases b with
    | false => exact .inl ⟨hexp, (returns_pure.mp h).1⟩
    | true =>
      -- one reference is in the list, the other was in the record of the core and is dropped
      have hstrong : ((letGo core pinfo r sys).arena r).strong = 2 := by
        rw [letGo, System.setTask_strong]
        exact hcons.strong core r ((current_of_procs hpinfo).trans hr)
      have hdrop : Returns M (arcDrop r (letGo core pinfo r sys)) _ sys' F' := h
      obtain ⟨rfl, -⟩ := returns_arcDrop.mp hdrop
      rw [hstrong]
      exact .inr ⟨hexp, rfl⟩

/-- The translation of a release. -/
theorem ofSystem_letGo {r : TaskRef} {n : ℕ} (hpinfo : sys.procs core = some pinfo) :
    ofSystem ((letGo core pinfo r sys).setStrong r n) =
      ((ofSystem sys).setCurrent core none).setState r .pending := by
  rw [ofSystem_setStrong, letGo, ofSystem_setTask, ofSystem_setCurrent hpinfo]
  rfl

/-- The second part of a tick: the core keeps its task and leaves, or comes to the loop. -/
theorem release_reaches (k : ℕ) (hcons : Consistent sys)
    (h : Returns M (releaseExpired env core sys) F sys' F') :
    (sys' = sys ∧ sys.current core ≠ none ∧
        Reaches env ((ofSystem sys).goto core (.checks k)) (ofSystem sys')) ∨
      (sys'.current core = none ∧
        Reaches env ((ofSystem sys).goto core (.checks k))
          ((ofSystem sys').goto core (.scans k 0 none))) := by
  obtain ⟨pinfo, hpinfo, ⟨hnone, rfl⟩ | ⟨r, hr, hexp⟩⟩ := releaseExpired_eq_ok hcons h
  · have hcur : sys'.current core = none := (current_of_procs hpinfo).trans hnone
    exact .inr ⟨hcur, .goto (.takesNothing State.goto_pc_self hcur)⟩
  · have hcur : sys.current core = some r := (current_of_procs hpinfo).trans hr
    have hmeasure : Reaches env ((ofSystem sys).goto core (.checks k))
        ((ofSystem sys).goto core (.measures k r)) :=
      .goto (.locksMeasured State.goto_pc_self hcur
        (grants_task ofSystem_outside (by simp [Pc.guards]) _))
    rcases hexp with ⟨hexp, rfl⟩ | ⟨hexp, rfl⟩
    -- the time slice lasts: the task is locked once more, to print its identifier
    · obtain ⟨since, life, hstate, hle, hlife, hdec⟩ := expired_eq_ok hexp
      have hlasts : Reaches env ((ofSystem sys').goto core (.measures k r))
          ((ofSystem sys').goto core .continues) :=
        .goto (.lasts State.goto_pc_self hstate hle hlife
          (Nat.lt_of_not_le (of_decide_eq_false hdec.symm)))
      have hlock : Reaches env ((ofSystem sys').goto core .continues)
          ((ofSystem sys').goto core (.prints r)) :=
        .goto (.locksPrinted State.goto_pc_self hcur
          (grants_task ofSystem_outside (by simp [Pc.guards]) _))
      have hprint : Reaches env ((ofSystem sys').goto core (.prints r))
          ((ofSystem sys').goto core .leaves) := .goto (.prints State.goto_pc_self)
      have hleave : Reaches env ((ofSystem sys').goto core .leaves)
          ((ofSystem sys').goto core .outside) := .goto (.leaves State.goto_pc_self)
      rw [goto_outside ofSystem_outside] at hleave
      exact .inl ⟨rfl, by simp [hcur],
        (((hmeasure.trans hlasts).trans hlock).trans hprint).trans hleave⟩
    -- the time slice is over: the task is taken, locked and marked as pending
    · obtain ⟨since, life, hstate, hle, hlife, hdec⟩ := expired_eq_ok hexp
      have htake : Step env ((ofSystem sys).goto core (.measures k r)) core
          ((((ofSystem sys).goto core (.measures k r)).setCurrent core none).goto core
            (.taken k r)) :=
        .takes State.goto_pc_self hstate hle hlife (of_decide_eq_true hdec.symm)
      have hlock : Reaches env (((ofSystem sys).setCurrent core none).goto core (.taken k r))
          (((ofSystem sys).setCurrent core none).goto core (.releases k r)) :=
        .goto (.locksReleased State.goto_pc_self
          (grants_task (fun _ => rfl) (by simp [Pc.guards]) _))
      have hrelease : Step env
          (((ofSystem sys).setCurrent core none).goto core (.releases k r)) core
          (((((ofSystem sys).setCurrent core none).goto core (.releases k r)).setState r
            .pending).goto core (.scans k 0 none)) := .releases State.goto_pc_self
      rw [setCurrent_goto] at htake
      rw [State.setState, setTask_goto] at hrelease
      refine .inr ⟨by simp [letGo], ?_⟩
      rw [ofSystem_letGo hpinfo]
      exact ((hmeasure.trans (.one htake)).trans hlock).trans (.one hrelease)

/-! ## The loop over the tasks -/

/-- The loop looks at one task after the other, from index `i` on, where `rs` are the tasks that are
left. What it holds on to is a task that it has passed. As no task is in the list twice, the next
one is not locked by the core itself, so that `try_write` succeeds just as `locks` says. -/
theorem scan_reaches (k : ℕ) {locks : Locks} (hnodup : sys.tasks.Nodup)
    (hfree : ∀ i, locks.write i = true) {rs : List TaskRef} {i : ℕ} {best : Option (ℕ × TaskRef)}
    (hrest : sys.tasks.drop i = rs) (hi : i ≤ sys.tasks.length)
    (hbest : ∀ j b, best = some (j, b) → b ∈ sys.tasks.take i) :
    Reaches env ((ofSystem sys).goto core (.scans k i best))
      ((ofSystem sys).goto core (.scans k sys.tasks.length (selectFrom sys locks rs i best))) := by
  -- induction on the tasks that are left; the invariant is that the guard is behind the index
  induction rs generalizing i best with
  | nil =>
    obtain rfl : i = sys.tasks.length := le_antisymm hi (List.drop_eq_nil_iff.mp hrest)
    exact .refl _
  | cons r rs ih =>
    have hlt : i < sys.tasks.length := by
      by_contra hge
      rw [List.drop_eq_nil_of_le (Nat.le_of_not_lt hge)] at hrest
      cases hrest
    obtain ⟨hget, hrest'⟩ : sys.tasks[i] = r ∧ sys.tasks.drop (i + 1) = rs := by
      rw [List.drop_eq_getElem_cons hlt] at hrest
      exact List.cons.inj hrest
    have hget? : sys.tasks[i]? = some r := by rw [List.getElem?_eq_getElem hlt, hget]
    -- the task at the index is none of those before it
    have hnew : r ∉ sys.tasks.take i := by
      intro hmem
      obtain ⟨j, hj, heq⟩ := List.mem_take_iff_getElem.mp hmem
      have hji : j = i := (hnodup.getElem_inj_iff).mp (heq.trans hget.symm)
      omega
    have htake {b : TaskRef} (hb : b ∈ sys.tasks.take i ∨ b = r) : b ∈ sys.tasks.take (i + 1) := by
      rw [List.take_succ_eq_append_getElem hlt, hget]
      rcases hb with hb | rfl
      · exact List.mem_append_left _ hb
      · exact List.mem_append_right _ (List.mem_singleton_self b)
    -- the guard of the best task is the only one that the core has, and it is on another task
    have htries : Reaches env ((ofSystem sys).goto core (.scans k i best))
        ((ofSystem sys).goto core (.looks k i best r)) := by
      refine .goto
        (.tries State.goto_pc_self hget? (grants_task ofSystem_outside (fun m hm => ?_) _))
      obtain ⟨⟨j, b⟩, hj, hb⟩ := List.mem_map.mp hm
      obtain ⟨rfl, -⟩ := Prod.mk.inj hb
      exact hnew (hbest j b (Option.mem_toList.mp hj))
    refine htries.trans ?_
    -- a task that runs is skipped; a pending one is compared with the best so far, as in
    -- `selectFrom`
    by_cases hstate : (sys.task r).state = .pending
    · cases best with
      | none =>
        rw [selectFrom, if_neg (by simp [hfree]), if_neg (not_not.mpr hstate)]
        refine Reaches.trans (.goto (.first State.goto_pc_self hstate)) (ih hrest' hlt ?_)
        rintro j b ⟨⟩
        exact htake (.inr rfl)
      | some jb =>
        obtain ⟨j, b⟩ := jb
        rw [selectFrom, if_neg (by simp [hfree]), if_neg (not_not.mpr hstate)]
        by_cases hlt' : (sys.task b).priority < (sys.task r).priority
        · simp only [hlt', if_true]
          refine Reaches.trans (.goto (.better State.goto_pc_self hstate hlt')) (ih hrest' hlt ?_)
          rintro j' b' ⟨⟩
          exact htake (.inr rfl)
        · simp only [hlt', if_false]
          refine Reaches.trans
            (.goto (.notBetter State.goto_pc_self hstate (Nat.le_of_not_lt hlt')))
            (ih hrest' hlt ?_)
          rintro j' b' ⟨⟩
          exact htake (.inl (hbest j b rfl))
    · rw [(selectFrom_skip rs best fun h => hstate h.2).1]
      exact Reaches.trans (.goto (.skips State.goto_pc_self hstate))
        (ih hrest' hlt fun j b hb => htake (.inl (hbest j b hb)))

/-- The translation of a selection. -/
theorem ofSystem_picked {clock : ℕ} {r : TaskRef} (hpinfo : sys.procs core = some pinfo) :
    ofSystem (picked core clock pinfo r sys) =
      ((ofSystem sys).setState r (.running clock)).setCurrent core (some r) := by
  have hpinfo' : ((sys.setTask r { sys.task r with state := .running clock }).arcClone
    r).procs core =
      some pinfo := hpinfo
  rw [picked, ofSystem_setCurrent hpinfo', System.arcClone, ofSystem_setStrong, ofSystem_setTask]
  rfl

/-- The last part of a tick, for a core without a task. -/
theorem pick_reaches {clock : ℕ} {locks : Locks} (hcons : Consistent sys)
    (hfree : ∀ i, locks.write i = true) (hidle : sys.current core = none)
    (hpick : pickTask core clock locks sys = .ok sys') :
    Reaches env ((ofSystem sys).goto core (.scans clock 0 none)) (ofSystem sys') := by
  have hscan : Reaches env ((ofSystem sys).goto core (.scans clock 0 none))
      ((ofSystem sys).goto core
        (.scans clock sys.tasks.length (selectFrom sys locks sys.tasks 0 none))) :=
    scan_reaches clock hcons.nodup hfree rfl (Nat.zero_le _) (by simp)
  have hleave {sys : System} : Reaches env ((ofSystem sys).goto core .leaves) (ofSystem sys) := by
    have hstep : Reaches env ((ofSystem sys).goto core .leaves)
        ((ofSystem sys).goto core .outside) :=
      .goto (.leaves State.goto_pc_self)
    rwa [goto_outside ofSystem_outside] at hstep
  refine hscan.trans ?_
  obtain ⟨pinfo, hpinfo, hcases⟩ := pickTask_first hcons hfree hpick
  have hnone : pinfo.currentTask = none := (current_of_procs hpinfo).symm.trans hidle
  rcases select_first hcons hfree with ⟨hsel, hall⟩ | ⟨i, b, hsel, hfirst⟩
  · -- every task runs, so that none is picked
    obtain rfl : sys' = sys := by
      rcases hcases with ⟨rfl, -⟩ | ⟨i, b, -, hfirst, -⟩
      · rfl
      · exact absurd (hall b (List.mem_of_getElem? hfirst.get)) hfirst.pending
    rw [hsel]
    exact Reaches.trans (.goto (.findsNothing State.goto_pc_self le_rfl)) hleave
  -- the first pending task is picked, and the loop has its index and its guard
  · obtain rfl : sys' = picked core clock pinfo b sys := by
      rcases hcases with ⟨-, hall⟩ | ⟨i', b', -, hfirst', rfl⟩
      · exact absurd (hall hnone b (List.mem_of_getElem? hfirst.get)) hfirst.pending
      · obtain rfl : b' = b := hfirst'.eq hfirst
        rfl
    rw [hsel]
    have hmark : Step env
        ((ofSystem sys).goto core (.scans clock sys.tasks.length (some (i, b)))) core
        ((((ofSystem sys).goto core (.scans clock sys.tasks.length (some (i, b)))).setState b
          (.running clock)).goto core (.marked i b)) := .marks State.goto_pc_self le_rfl
    have hadopt : Step env
        (((ofSystem sys).setState b (.running clock)).goto core (.marked i b)) core
        ((((((ofSystem sys).setState b (.running clock)).goto core (.marked i b))).setCurrent core
          (some b)).goto core (.adopted b)) := .adopts State.goto_pc_self hfirst.get
    rw [State.setState, setTask_goto] at hmark
    rw [setCurrent_goto, ← ofSystem_picked hpinfo] at hadopt
    have hunlock : Reaches env ((ofSystem (picked core clock pinfo b sys)).goto core (.adopted b))
        ((ofSystem (picked core clock pinfo b sys)).goto core .leaves) :=
      .goto (.unlocks State.goto_pc_self)
    exact (((Reaches.one hmark).trans (.one hadopt)).trans hunlock).trans hleave

/-- A whole tick that is given every lock. -/
theorem tick_reaches {procState : TaskProcState} {locks : Locks} (hcons : Consistent sys)
    (htasks : locks.tasks = true) (hfree : ∀ i, locks.write i = true)
    (h : Returns M (tick env core procState locks sys) F sys' F') :
    Reaches env (ofSystem sys) (ofSystem sys') := by
  obtain ⟨pinfo, hpinfo, ⟨hmiss, -⟩ | ⟨-, sys₁, F₁, sys₂, hbegin, hrelease, hpick⟩⟩ := tick_cases h
  · simp [ProcInfo.obtains, htasks] at hmiss
  · have hcons₁ := (tickBegin_consistent hcons hbegin).1
    have hcons₂ := (releaseExpired_consistent hcons₁ hrelease).1
    refine (begin_reaches hbegin).trans ?_
    rcases release_reaches sys.clock hcons₁ hrelease with ⟨rfl, hcur, hkeeps⟩ | ⟨hidle, hloop⟩
    · -- the core has a task, so that nothing is picked
      obtain ⟨pinfo₂, hpinfo₂, ⟨rfl, -⟩ | ⟨i, b, hnone, -⟩⟩ := pickTask_first hcons₂ hfree hpick
      · exact hkeeps
      · exact absurd ((current_of_procs hpinfo₂).trans hnone) hcur
    · exact hloop.trans (pick_reaches hcons₂ hfree hidle hpick)

end Tick

/-! ## The other events -/

section Events

variable {M F F' : Set PhysFrame} {env : Env} {sys sys' : System} {core : ℕ} {pinfo : ProcInfo}

/-- `find` passes over the tasks with other identifiers. -/
theorem find_reaches {S : State} {c id index : ℕ} {r : TaskRef} (hout : ∀ c, S.pc c = .outside)
    (hids : ∀ j < index, ∃ x, S.tasks[j]? = some x ∧ (S.task x).id ≠ id) {j : ℕ} (hj : j ≤ index) :
    Reaches env (S.goto c (.finds r id 0)) (S.goto c (.finds r id j)) := by
  induction j with
  | zero => exact .refl _
  | succ j ih =>
    obtain ⟨x, hget, hne⟩ := hids j hj
    have hlock : Reaches env (S.goto c (.finds r id j)) (S.goto c (.compares r id j x)) :=
      .goto (.locksCompared State.goto_pc_self hget (grants_task hout (by simp [Pc.guards]) _))
    have hdiffers : Reaches env (S.goto c (.compares r id j x)) (S.goto c (.finds r id (j + 1))) :=
      .goto (.differs State.goto_pc_self hne)
    exact ((ih (Nat.le_of_succ_le hj)).trans hlock).trans hdiffers

/-- The translation of an exit. -/
theorem ofSystem_exited {r : TaskRef} (hpinfo : sys.procs core = some pinfo) :
    ofSystem (exited core pinfo r sys) =
      { (ofSystem sys).setCurrent core none with tasks := sys.tasks.erase r } := by
  rw [exited, ofSystem_setStrong, ← ofSystem_setCurrent hpinfo]
  rfl

/-- `exit_current` that is given every lock. The core goes through `find` up to its own task, which
is the only one with its identifier, and removes it. -/
theorem exit_reaches (hcons : Consistent sys) (h : Returns M (exitCurrent core sys) F sys' F') :
    Reaches env (ofSystem sys) (ofSystem sys') := by
  obtain ⟨pinfo, hpinfo, ⟨-, rfl, -⟩ | ⟨r, hr, rfl, -⟩⟩ := exitCurrent_of_consistent hcons h
  · exact .refl _
  · have hcur : sys.current core = some r := (current_of_procs hpinfo).trans hr
    obtain ⟨index, hindex⟩ := List.getElem?_of_mem (hcons.current core r hcur).1
    obtain ⟨hlt, hget⟩ := List.getElem?_eq_some_iff.mp hindex
    -- the tasks before it have other identifiers
    have hids (j : ℕ) (hj : j < index) :
        ∃ x, sys.tasks[j]? = some x ∧ (sys.task x).id ≠ (sys.task r).id := by
      have hjlt : j < sys.tasks.length := hj.trans hlt
      refine ⟨_, List.getElem?_eq_getElem hjlt, fun heq => ?_⟩
      have hsame := hcons.ids _ (List.getElem_mem hjlt) r (List.mem_of_getElem? hindex) heq
      exact absurd (hcons.nodup.getElem_inj_iff.mp (hsame.trans hget.symm)) (Nat.ne_of_lt hj)
    -- `Vec::remove` takes an index, `List.erase` a task
    have herase : sys.tasks.eraseIdx index = sys.tasks.erase r := by
      rw [← hcons.nodup.erase_getElem index hlt, hget]
    rw [ofSystem_exited hpinfo, ← herase]
    have htake : Reaches env (ofSystem sys)
        (((ofSystem sys).setCurrent core none).goto core (.exits r)) := .one (.exits rfl hcur)
    refine htake.trans ?_
    -- the rest happens in one state, with the task in hand
    have hout (c : ℕ) : ((ofSystem sys).setCurrent core none).pc c = .outside := rfl
    have htasks : ((ofSystem sys).setCurrent core none).tasks = sys.tasks := rfl
    have htask : ((ofSystem sys).setCurrent core none).task = sys.task := rfl
    generalize (ofSystem sys).setCurrent core none = S at hout htasks htask ⊢
    rw [← htasks] at hindex
    have hread : Reaches env (S.goto core (.exits r)) (S.goto core (.readsId r)) :=
      .goto (.locksId State.goto_pc_self (grants_task hout (by simp [Pc.guards]) _))
    have hid : Reaches env (S.goto core (.readsId r)) (S.goto core (.exitWaits r (S.task r).id)) :=
      .goto (.readsId State.goto_pc_self)
    have hget : Reaches env (S.goto core (.exitWaits r (S.task r).id))
        (S.goto core (.finds r (S.task r).id 0)) :=
      .goto (.exitGets State.goto_pc_self (grants_tasks hout rfl _))
    have hfind : Reaches env (S.goto core (.finds r (S.task r).id 0))
        (S.goto core (.finds r (S.task r).id index)) :=
      find_reaches hout (by rw [htasks, htask]; exact hids) le_rfl
    have hlock : Reaches env (S.goto core (.finds r (S.task r).id index))
        (S.goto core (.compares r (S.task r).id index r)) :=
      .goto (.locksCompared State.goto_pc_self hindex (grants_task hout (by simp [Pc.guards]) _))
    have hagrees : Reaches env (S.goto core (.compares r (S.task r).id index r))
        (S.goto core (.removes r index)) := .goto (.agrees State.goto_pc_self rfl)
    have hupgrade : Reaches env (S.goto core (.removes r index)) (S.goto core (.erases r index)) :=
      .goto (.removes State.goto_pc_self (alone_tasks hout))
    have herases : Step env (S.goto core (.erases r index)) core
        ({ S.goto core (.erases r index) with tasks := S.tasks.eraseIdx index }.goto core
          .outside) :=
      .erases State.goto_pc_self (List.getElem?_eq_some_iff.mp hindex).1
    have hend : ({ S.goto core (.erases r index) with tasks := S.tasks.eraseIdx index }.goto core
        .outside) = { S with tasks := sys.tasks.eraseIdx index } := by
      have hpc : Function.update S.pc core .outside = S.pc := by
        rw [← hout core, Function.update_eq_self]
      simp [State.goto, Function.update_idem, hpc, htasks]
    rw [hend] at herases
    exact ((((((hread.trans hid).trans hget).trans hfind).trans hlock).trans hagrees).trans
      hupgrade).trans (.one herases)

/-- `exec` under the lock of `Spawn`. -/
theorem exec_reaches {elf : ElfFile} {res : ExecResult}
    (h : Returns M (exec core elf sys) F (res, sys') F') :
    Reaches env (ofSystem sys) (ofSystem sys') := by
  obtain ⟨vm, ⟨-, rfl⟩ | ⟨procstate, map, rfl⟩⟩ := exec_cases h
  · have hwait : Reaches env (ofSystem sys) ((ofSystem sys).goto core .spawnWaits) :=
      .one (.spawnWaits rfl)
    have hlock : Reaches env ((ofSystem sys).goto core .spawnWaits)
        ((ofSystem sys).goto core .spawns) :=
      .goto (.spawnGets State.goto_pc_self (grants_tasks ofSystem_outside rfl _))
    have hfail : Reaches env ((ofSystem sys).goto core .spawns)
        ((ofSystem sys).goto core .outside) :=
      .goto (.spawnFails State.goto_pc_self)
    rw [goto_outside ofSystem_outside] at hfail
    exact (hwait.trans hlock).trans hfail
  · rw [ofSystem_push, ofSystem_vm]
    exact ⟨_, spawn_run ofSystem_outside core procstate map⟩

theorem spawn_reaches {path : String} {res : SpawnResult}
    (h : Returns M (spawn env core path sys) F (res, sys') F') :
    Reaches env (ofSystem sys) (ofSystem sys') := by
  obtain ⟨res', hexec⟩ := spawn_cases h
  rcases execInitrd_cases hexec with ⟨-, rfl, -⟩ | ⟨elf, -, hexec⟩
  · exact .refl _
  · exact exec_reaches hexec

/-- `continue_current` reads the current task. -/
theorem continue_reaches {resetTimer : Bool} {out : List LapicWrite × Target}
    (h : Returns M (continueCurrent core resetTimer sys) F (out, sys') F') :
    Reaches env (ofSystem sys) (ofSystem sys') := by
  obtain ⟨pinfo, hpinfo, ⟨-, -, rfl, -⟩ | ⟨r, hr, -, happly⟩⟩ := continueCurrent_cases h
  · exact .refl _
  · have hcur : sys.current core = some r := (current_of_procs hpinfo).trans hr
    have hsame : ofSystem sys' = ofSystem sys := by
      obtain ⟨pinfo', hpinfo', ⟨-, rfl, -⟩ | ⟨-, vm, -, rfl⟩⟩ := apply_cases happly
      · rfl
      · have hpinfo₁ : System.procs { sys with vm } core = some pinfo' := hpinfo'
        exact ofSystem_setProc_same hpinfo₁ rfl rfl
    have hgrants : Grants ((ofSystem sys).taskLock r) .read :=
      grants_task_idle ofSystem_outside r .read
    have hlock : Reaches env (ofSystem sys) ((ofSystem sys).goto core (.own r .read)) :=
      .one (.locksOwn rfl (.inl rfl) hcur hgrants)
    have hunlock : Reaches env ((ofSystem sys).goto core (.own r .read))
        ((ofSystem sys).goto core .outside) := .goto (.reads State.goto_pc_self)
    rw [goto_outside ofSystem_outside] at hunlock
    rw [hsame]
    exact hlock.trans hunlock

end Events

/-! ## Runs -/

/-- Every lock is free. -/
def AllFree : Event → Prop
  | .tick _ _ locks => locks.tasks = true ∧ ∀ i, locks.write i = true
  | .spawn .. | .exec .. | .exitCurrent .. | .continueCurrent .. => True

/-- Every event that is given all its locks is a run of the cut model. The cases are the lemmas
above. -/
theorem code_reaches {M F F' : Set PhysFrame} {env : Env} {sys sys' : System} {e : Event}
    (hcons : Consistent sys) (hfree : AllFree e) (h : Returns M (e.code env sys) F sys' F') :
    Reaches env (ofSystem sys) (ofSystem sys') := by
  cases e with
  | tick core procState locks => exact tick_reaches hcons hfree.1 hfree.2 h
  | spawn core path =>
    simp only [Event.code, returns_bind, returns_pure, Prod.exists] at h
    obtain ⟨res, sys₁, F₁, hspawn, rfl, -⟩ := h
    exact spawn_reaches hspawn
  | exec core elf =>
    simp only [Event.code, returns_bind, returns_pure, Prod.exists] at h
    obtain ⟨res, sys₁, F₁, hexec, rfl, -⟩ := h
    exact exec_reaches hexec
  | exitCurrent core => exact exit_reaches hcons h
  | continueCurrent core resetTimer =>
    rw [Event.code, returns_bind] at h
    obtain ⟨⟨out, sys₁⟩, F₁, hcont, h⟩ := h
    obtain ⟨rfl, -⟩ := returns_pure.mp h
    exact continue_reaches hcont

/-- **Runs of one piece are interleavings.**  Whatever the cores do in steps of one piece, with
every lock free, they can do lock by lock: the list of tasks, the tasks, the clock and the records
of the cores come out the same. -/
theorem atomic_runs_interleave {env : Env} {w w' : World} {es : List Event} (hbooted : Booted w)
    (hrun : Run (Guarded (Proc.Step env) fun _ e => AllFree e) w es w') :
    ∃ cs, Run (Step env) (ofSystem w.sys) cs (ofSystem w'.sys) := by
  have hall := hrun.preserves
    (I := fun w' => Consistent w'.sys ∧ w'.pmm.Sound ∧
      Reaches env (ofSystem w.sys) (ofSystem w'.sys))
    ⟨consistent_of_idle hbooted.tasks hbooted.idle, hbooted.sound, .refl _⟩ ?_
  · exact hall.2.2
  · rintro w₁ e w₂ ⟨hcons, hsound, hreaches⟩ ⟨hstep, hfree⟩
    obtain ⟨hcode, hsound', -⟩ := hstep.returns hsound
    exact ⟨(code_consistent hcons hcode).1, hsound',
      hreaches.trans (code_reaches hcons hfree hcode)⟩

/-- Two tasks are made and one is started, lock by lock. -/
theorem atomic_runs_interleave_two : ∃ es w', Booted boot.toWorld ∧
    Run (Guarded (Proc.Step bareEnv) fun _ e => AllFree e) boot.toWorld es w' ∧
    w'.sys.tasks = [0, 1] ∧ w'.sys.current 0 = some 0 ∧
    ∃ cs, Run (Step bareEnv) (ofSystem boot.sys) cs (ofSystem w'.sys) := by
  obtain ⟨vm, mapA, mapB, pmm, hrun⟩ := first_picked_free
  have hfree : Run (Guarded (Proc.Step bareEnv) fun _ e => AllFree e) boot.toWorld
      [.exec 0 bareElf, .exec 0 bareElf, tickAll] ⟨firstPicked vm mapA mapB, pmm⟩ := by
    refine hrun.guarded_mem.mono fun _ e _ hstep => ⟨hstep.1.1, ?_⟩
    have hmem := hstep.2
    simp only [List.mem_cons, List.not_mem_nil, or_false] at hmem
    rcases hmem with rfl | rfl | rfl
    · trivial
    · trivial
    · exact ⟨rfl, fun _ => rfl⟩
  exact ⟨_, _, booted_bootSystem, hfree, rfl, rfl, atomic_runs_interleave booted_bootSystem hfree⟩

end HeliumOS.Proc.Locking
