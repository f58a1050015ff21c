import HeliumOS.Lib.RwLock
import HeliumOS.Lib.Run
import HeliumOS.Proc.Task

/-!
# The Scheduler between Its Locks

`tick`, `exit_current`, `Spawn` and the accesses of a core to its own task, cut at every operation
on the lock of `TASKS` and on the locks of the tasks.  Any number of cores take turns between two
such operations, in any order.

A guard lives in a local variable of the core that holds it, so that what a core holds is a function
of its program counter (`Pc.tasksGuard`, `Pc.guards`), and a lock is given away or refused according
to what all the cores hold.  A write to the data behind a lock and the release of that lock are one
step: nobody can look in between.

Memory maps and registers are carried along in the tasks; what is written to the registers is left
open, and so is what becomes of a program that is loaded.  A core that panics there never runs
again, and whatever it has locked stays locked.
-/

namespace HeliumOS.Proc.Locking

open HeliumOS.Lib HeliumOS.Mem HeliumOS.Elf

/-! ## Program counters -/

/-- Where a core is, with the local variables that it still needs. -/
inductive Pc where
  /-- Outside of the functions below. -/
  | outside
  /-- `tick`: waits in `upgradeable_read`, after too many misses. -/
  | tickWaits
  /-- `tick`: has the lock on `TASKS`. -/
  | granted
  /-- `tick`: has counted the tick, and is about to save the registers. -/
  | saving (clock : ℕ)
  /-- `tick`: has the current task locked, to save the registers. -/
  | saves (clock : ℕ) (r : TaskRef)
  /-- `tick`: looks at the length of the list. -/
  | counts (clock : ℕ)
  /-- `tick`: waits in `upgrade`, to start init. -/
  | upgrades (clock : ℕ)
  /-- `tick`: starts init. -/
  | starts (clock : ℕ)
  /-- `tick`: before `take_if`. -/
  | checks (clock : ℕ)
  /-- `tick`: in the closure of `take_if`. -/
  | measures (clock : ℕ) (r : TaskRef)
  /-- `tick`: the task is taken, and is about to be locked. -/
  | taken (clock : ℕ) (r : TaskRef)
  /-- `tick`: the task that was taken is locked, to mark it as pending. -/
  | releases (clock : ℕ) (r : TaskRef)
  /-- `tick`: there still is a task. -/
  | continues
  /-- `tick`: prints the identifier of the task. -/
  | prints (r : TaskRef)
  /-- `tick`: in the loop over the tasks, with the guard of the best one so far. -/
  | scans (clock i : ℕ) (best : Option (ℕ × TaskRef))
  /-- `tick`: in the loop, with the guard of the task at the index. -/
  | looks (clock i : ℕ) (best : Option (ℕ × TaskRef)) (r : TaskRef)
  /-- `tick`: has marked the task behind the guard as running. -/
  | marked (index : ℕ) (guard : TaskRef)
  /-- `tick`: has set the current task. -/
  | adopted (guard : TaskRef)
  /-- `tick`: about to drop the lock on `TASKS`. -/
  | leaves
  /-- `exit_current`: the task is taken. -/
  | exits (r : TaskRef)
  /-- `exit_current`: has the task locked, to read its identifier. -/
  | readsId (r : TaskRef)
  /-- `exit_current`: waits in `upgradeable_read`. -/
  | exitWaits (r : TaskRef) (id : ℕ)
  /-- `exit_current`: in `find`, before the task at the index. -/
  | finds (r : TaskRef) (id i : ℕ)
  /-- `exit_current`: in `find`, with the task at the index locked. -/
  | compares (r : TaskRef) (id i : ℕ) (x : TaskRef)
  /-- `exit_current`: waits in `upgrade`. -/
  | removes (r : TaskRef) (index : ℕ)
  /-- `exit_current`: about to remove the task from the list. -/
  | erases (r : TaskRef) (index : ℕ)
  /-- `Spawn`: waits in `write`. -/
  | spawnWaits
  /-- `Spawn`: has the list for itself. -/
  | spawns
  /-- A panic while a program was loaded: the core halts, and keeps the lock on `TASKS`. -/
  | halted
  /-- A system call or `continue_current`: has the current task locked. -/
  | own (r : TaskRef) (m : LockMode)

/-- The guard on `TASKS` that a core holds. -/
def Pc.tasksGuard : Pc → Option LockMode
  | .granted | .saving _ | .saves .. | .counts _ | .upgrades _ | .finds .. | .compares ..
  | .removes .. => some .upgradeable
  | .starts _ | .erases .. | .spawns | .halted => some .write
  | .checks _ | .measures .. | .taken .. | .releases .. | .continues | .prints _ | .scans ..
  | .looks .. | .marked .. | .adopted _ | .leaves => some .read
  | .outside | .tickWaits | .exits _ | .readsId _ | .exitWaits .. | .spawnWaits | .own .. => none

/-- The guard of the best task so far. -/
def bestGuard (best : Option (ℕ × TaskRef)) : List (TaskRef × LockMode) :=
  best.toList.map fun b => (b.2, .write)

/-- The guards on tasks that a core holds. -/
def Pc.guards : Pc → List (TaskRef × LockMode)
  | .saves _ r | .releases _ r | .marked _ r | .adopted r => [(r, .write)]
  | .measures _ r | .prints r | .readsId r | .compares _ _ _ r => [(r, .read)]
  | .scans _ _ best => bestGuard best
  | .looks _ _ best r => (r, .write) :: bestGuard best
  | .own r m => [(r, m)]
  | .outside | .tickWaits | .granted | .saving _ | .counts _ | .upgrades _ | .starts _ | .checks _
  | .taken .. | .continues | .leaves | .exits _ | .exitWaits .. | .finds .. | .removes ..
  | .erases .. | .spawnWaits | .spawns | .halted => []

/-! ## States -/

/-- `TASKS`, the tasks by reference, `CLOCK`, `IDCOUNT`, and of every core its current task, its
misses and its program counter. -/
structure State where
  tasks : List TaskRef
  task : TaskRef → Task
  nextRef : TaskRef
  clock : ℕ
  idCount : ℕ
  current : ℕ → Option TaskRef
  tickMiss : ℕ → ℕ
  pc : ℕ → Pc

namespace State

variable (S : State)

/-- Who holds the lock on `TASKS`. -/
def tasksLock (c : ℕ) (m : LockMode) : Prop := (S.pc c).tasksGuard = some m

/-- Who holds the lock on a task. -/
def taskLock (r : TaskRef) (c : ℕ) (m : LockMode) : Prop := (r, m) ∈ (S.pc c).guards

/-- Move a core to another program counter. -/
def goto (c : ℕ) (pc : Pc) : State := { S with pc := Function.update S.pc c pc }

def setCurrent (c : ℕ) (o : Option TaskRef) : State :=
  { S with current := Function.update S.current c o }

def setTickMiss (c n : ℕ) : State := { S with tickMiss := Function.update S.tickMiss c n }

def setTask (r : TaskRef) (t : Task) : State := { S with task := Function.update S.task r t }

/-- Save or change the registers of a task. -/
def setRegisters (r : TaskRef) (procstate : TaskProcState) : State :=
  S.setTask r { S.task r with procstate }

def setState (r : TaskRef) (state : TaskState) : State := S.setTask r { S.task r with state }

/-- `CLOCK.fetch_add`, and the misses are forgotten. -/
def count (c : ℕ) : State := { S.setTickMiss c 0 with clock := (S.clock + 1) % 2 ^ 64 }

/-- `Task::new_locked`. -/
def push (procstate : TaskProcState) (memoryMap : MemoryMap) : State :=
  { S with
    tasks := S.tasks ++ [S.nextRef]
    task := Function.update S.task S.nextRef ⟨S.idCount + 1, 0, procstate, memoryMap, .pending⟩
    nextRef := S.nextRef + 1
    idCount := S.idCount + 1 }

section Fields

variable {S} {c c' : ℕ} {pc : Pc} {o : Option TaskRef} {n : ℕ} {r r' : TaskRef} {t : Task}

@[simp] theorem goto_tasks : (S.goto c pc).tasks = S.tasks := rfl
@[simp] theorem goto_task : (S.goto c pc).task = S.task := rfl
@[simp] theorem goto_nextRef : (S.goto c pc).nextRef = S.nextRef := rfl
@[simp] theorem goto_clock : (S.goto c pc).clock = S.clock := rfl
@[simp] theorem goto_idCount : (S.goto c pc).idCount = S.idCount := rfl
@[simp] theorem goto_current : (S.goto c pc).current = S.current := rfl
@[simp] theorem goto_pc_self : (S.goto c pc).pc c = pc := Function.update_self ..
theorem goto_pc_of_ne (h : c' ≠ c) : (S.goto c pc).pc c' = S.pc c' := Function.update_of_ne h ..

@[simp] theorem setCurrent_tasks : (S.setCurrent c o).tasks = S.tasks := rfl
@[simp] theorem setCurrent_task : (S.setCurrent c o).task = S.task := rfl
@[simp] theorem setCurrent_nextRef : (S.setCurrent c o).nextRef = S.nextRef := rfl
@[simp] theorem setCurrent_clock : (S.setCurrent c o).clock = S.clock := rfl
@[simp] theorem setCurrent_idCount : (S.setCurrent c o).idCount = S.idCount := rfl
@[simp] theorem setCurrent_pc : (S.setCurrent c o).pc = S.pc := rfl
@[simp] theorem setCurrent_current_self : (S.setCurrent c o).current c = o :=
  Function.update_self ..
theorem setCurrent_current_of_ne (h : c' ≠ c) : (S.setCurrent c o).current c' = S.current c' :=
  Function.update_of_ne h ..

@[simp] theorem setTask_tasks : (S.setTask r t).tasks = S.tasks := rfl
@[simp] theorem setTask_nextRef : (S.setTask r t).nextRef = S.nextRef := rfl
@[simp] theorem setTask_clock : (S.setTask r t).clock = S.clock := rfl
@[simp] theorem setTask_idCount : (S.setTask r t).idCount = S.idCount := rfl
@[simp] theorem setTask_current : (S.setTask r t).current = S.current := rfl
@[simp] theorem setTask_pc : (S.setTask r t).pc = S.pc := rfl
@[simp] theorem setTask_task_self : (S.setTask r t).task r = t := Function.update_self ..
theorem setTask_task_of_ne (h : r' ≠ r) : (S.setTask r t).task r' = S.task r' :=
  Function.update_of_ne h ..

end Fields

end State

/-! ## Steps -/

/-- One step of a core. -/
inductive Step (env : Env) : State → ℕ → State → Prop where
  /-- `try_upgradeable_read` fails, and the tick is missed. -/
  | tickMisses {S : State} {c : ℕ} (hpc : S.pc c = .outside)
      (hmiss : S.tickMiss c ≤ MAX_TICK_MISS) (hlock : ¬ Grants S.tasksLock .upgradeable) :
      Step env S c (S.setTickMiss c (S.tickMiss c + 1))
  /-- `try_upgradeable_read` succeeds. -/
  | tickTries {S : State} {c : ℕ} (hpc : S.pc c = .outside)
      (hmiss : S.tickMiss c ≤ MAX_TICK_MISS) (hlock : Grants S.tasksLock .upgradeable) :
      Step env S c (S.goto c .granted)
  /-- After enough misses `tick` waits for the lock. -/
  | tickWaits {S : State} {c : ℕ} (hpc : S.pc c = .outside)
      (hmiss : MAX_TICK_MISS < S.tickMiss c) : Step env S c (S.goto c .tickWaits)
  | tickGets {S : State} {c : ℕ} (hpc : S.pc c = .tickWaits)
      (hlock : Grants S.tasksLock .upgradeable) : Step env S c (S.goto c .granted)
  /-- The tick is counted. -/
  | counts {S : State} {c : ℕ} (hpc : S.pc c = .granted) :
      Step env S c ((S.count c).goto c (.saving S.clock))
  /-- No task was interrupted. -/
  | savesNothing {S : State} {c clock : ℕ} (hpc : S.pc c = .saving clock)
      (hcur : S.current c = none) : Step env S c (S.goto c (.counts clock))
  | locksSaved {S : State} {c clock : ℕ} {r : TaskRef} (hpc : S.pc c = .saving clock)
      (hcur : S.current c = some r) (hlock : Grants (S.taskLock r) .write) :
      Step env S c (S.goto c (.saves clock r))
  | saves {S : State} {c clock : ℕ} {r : TaskRef} (procstate : TaskProcState)
      (hpc : S.pc c = .saves clock r) :
      Step env S c ((S.setRegisters r procstate).goto c (.counts clock))
  /-- There are tasks: `downgrade`. -/
  | hasTasks {S : State} {c clock : ℕ} (hpc : S.pc c = .counts clock) (htasks : S.tasks ≠ []) :
      Step env S c (S.goto c (.checks clock))
  | noTasks {S : State} {c clock : ℕ} (hpc : S.pc c = .counts clock) (htasks : S.tasks = []) :
      Step env S c (S.goto c (.upgrades clock))
  | upgrades {S : State} {c clock : ℕ} (hpc : S.pc c = .upgrades clock)
      (hlock : Alone S.tasksLock c) : Step env S c (S.goto c (.starts clock))
  /-- Init is created: `downgrade`. -/
  | starts {S : State} {c clock : ℕ} {elf : ElfFile} (memoryMap : MemoryMap)
      (hpc : S.pc c = .starts clock) (hinit : env.program "/bin/init" = some elf) :
      Step env S c ((S.push (.new elf.header.entrypoint) memoryMap).goto c (.checks clock))
  /-- Init cannot be run, or `exec` panics. -/
  | noInit {S : State} {c clock : ℕ} (hpc : S.pc c = .starts clock) : Step env S c
      (S.goto c .halted)
  -- the closure of `take_if` only runs when there is a current task
  | takesNothing {S : State} {c clock : ℕ} (hpc : S.pc c = .checks clock)
      (hcur : S.current c = none) : Step env S c (S.goto c (.scans clock 0 none))
  | locksMeasured {S : State} {c clock : ℕ} {r : TaskRef} (hpc : S.pc c = .checks clock)
      (hcur : S.current c = some r) (hlock : Grants (S.taskLock r) .read) :
      Step env S c (S.goto c (.measures clock r))
  /-- The time slice lasts.  A task that is not running, or was started in the future, is a
  panic. -/
  | lasts {S : State} {c clock since life : ℕ} {r : TaskRef} (hpc : S.pc c = .measures clock r)
      (hstate : (S.task r).state = .running since) (hsince : since ≤ S.clock)
      (hlife : lifeExpectancy env (S.task r) = .ok life) (hlt : S.clock - since < life) :
      Step env S c (S.goto c .continues)
  /-- The time slice is over, and the task is taken. -/
  | takes {S : State} {c clock since life : ℕ} {r : TaskRef} (hpc : S.pc c = .measures clock r)
      (hstate : (S.task r).state = .running since) (hsince : since ≤ S.clock)
      (hlife : lifeExpectancy env (S.task r) = .ok life) (hle : life ≤ S.clock - since) :
      Step env S c ((S.setCurrent c none).goto c (.taken clock r))
  | locksReleased {S : State} {c clock : ℕ} {r : TaskRef} (hpc : S.pc c = .taken clock r)
      (hlock : Grants (S.taskLock r) .write) : Step env S c (S.goto c (.releases clock r))
  | releases {S : State} {c clock : ℕ} {r : TaskRef} (hpc : S.pc c = .releases clock r) :
      Step env S c ((S.setState r .pending).goto c (.scans clock 0 none))
  | locksPrinted {S : State} {c : ℕ} {r : TaskRef} (hpc : S.pc c = .continues)
      (hcur : S.current c = some r) (hlock : Grants (S.taskLock r) .read) :
      Step env S c (S.goto c (.prints r))
  | prints {S : State} {c : ℕ} {r : TaskRef} (hpc : S.pc c = .prints r) :
      Step env S c (S.goto c .leaves)
  /-- `try_write` succeeds. -/
  | tries {S : State} {c clock i : ℕ} {best : Option (ℕ × TaskRef)} {r : TaskRef}
      (hpc : S.pc c = .scans clock i best) (hget : S.tasks[i]? = some r)
      (hlock : Grants (S.taskLock r) .write) : Step env S c (S.goto c (.looks clock i best r))
  /-- `try_write` fails: `continue`. -/
  | fails {S : State} {c clock i : ℕ} {best : Option (ℕ × TaskRef)} {r : TaskRef}
      (hpc : S.pc c = .scans clock i best) (hget : S.tasks[i]? = some r)
      (hlock : ¬ Grants (S.taskLock r) .write) : Step env S c (S.goto c (.scans clock (i + 1) best))
  /-- The task is not pending: `continue`. -/
  | skips {S : State} {c clock i : ℕ} {best : Option (ℕ × TaskRef)} {r : TaskRef}
      (hpc : S.pc c = .looks clock i best r) (hstate : (S.task r).state ≠ .pending) :
      Step env S c (S.goto c (.scans clock (i + 1) best))
  | first {S : State} {c clock i : ℕ} {r : TaskRef} (hpc : S.pc c = .looks clock i none r)
      (hstate : (S.task r).state = .pending) :
      Step env S c (S.goto c (.scans clock (i + 1) (some (i, r))))
  /-- A better task replaces the guard of the best one, and not its index. -/
  | better {S : State} {c clock i j : ℕ} {b r : TaskRef}
      (hpc : S.pc c = .looks clock i (some (j, b)) r)
      (hstate : (S.task r).state = .pending) (hlt : (S.task b).priority < (S.task r).priority) :
      Step env S c (S.goto c (.scans clock (i + 1) (some (j, r))))
  | notBetter {S : State} {c clock i j : ℕ} {b r : TaskRef}
      (hpc : S.pc c = .looks clock i (some (j, b)) r) (hstate : (S.task r).state = .pending)
      (hle : (S.task r).priority ≤ (S.task b).priority) :
      Step env S c (S.goto c (.scans clock (i + 1) (some (j, b))))
  | findsNothing {S : State} {c clock i : ℕ} (hpc : S.pc c = .scans clock i none)
      (hend : S.tasks.length ≤ i) : Step env S c (S.goto c .leaves)
  /-- The task behind the guard is marked as running. -/
  | marks {S : State} {c clock i index : ℕ} {guard : TaskRef}
      (hpc : S.pc c = .scans clock i (some (index, guard))) (hend : S.tasks.length ≤ i) :
      Step env S c ((S.setState guard (.running clock)).goto c (.marked index guard))
  /-- The task at the index becomes the current one.  An index that is out of bounds is a panic. -/
  | adopts {S : State} {c index : ℕ} {guard r : TaskRef} (hpc : S.pc c = .marked index guard)
      (hget : S.tasks[index]? = some r) :
      Step env S c ((S.setCurrent c (some r)).goto c (.adopted guard))
  | unlocks {S : State} {c : ℕ} {guard : TaskRef} (hpc : S.pc c = .adopted guard) :
      Step env S c (S.goto c .leaves)
  | leaves {S : State} {c : ℕ} (hpc : S.pc c = .leaves) : Step env S c (S.goto c .outside)
  /-- `exit_current` takes the current task. -/
  | exits {S : State} {c : ℕ} {r : TaskRef} (hpc : S.pc c = .outside)
      (hcur : S.current c = some r) :
      Step env S c ((S.setCurrent c none).goto c (.exits r))
  | locksId {S : State} {c : ℕ} {r : TaskRef} (hpc : S.pc c = .exits r)
      (hlock : Grants (S.taskLock r) .read) : Step env S c (S.goto c (.readsId r))
  | readsId {S : State} {c : ℕ} {r : TaskRef} (hpc : S.pc c = .readsId r) :
      Step env S c (S.goto c (.exitWaits r (S.task r).id))
  | exitGets {S : State} {c id : ℕ} {r : TaskRef} (hpc : S.pc c = .exitWaits r id)
      (hlock : Grants S.tasksLock .upgradeable) : Step env S c (S.goto c (.finds r id 0))
  | locksCompared {S : State} {c id i : ℕ} {r x : TaskRef} (hpc : S.pc c = .finds r id i)
      (hget : S.tasks[i]? = some x) (hlock : Grants (S.taskLock x) .read) :
      Step env S c (S.goto c (.compares r id i x))
  | differs {S : State} {c id i : ℕ} {r x : TaskRef} (hpc : S.pc c = .compares r id i x)
      (hid : (S.task x).id ≠ id) : Step env S c (S.goto c (.finds r id (i + 1)))
  | agrees {S : State} {c id i : ℕ} {r x : TaskRef} (hpc : S.pc c = .compares r id i x)
      (hid : (S.task x).id = id) : Step env S c (S.goto c (.removes r i))
  /-- `find` has come to the end: `return`. -/
  | misses {S : State} {c id i : ℕ} {r : TaskRef} (hpc : S.pc c = .finds r id i)
      (hend : S.tasks.length ≤ i) : Step env S c (S.goto c .outside)
  | removes {S : State} {c index : ℕ} {r : TaskRef} (hpc : S.pc c = .removes r index)
      (hlock : Alone S.tasksLock c) : Step env S c (S.goto c (.erases r index))
  /-- `Vec::remove`.  An index that is out of bounds is a panic. -/
  | erases {S : State} {c index : ℕ} {r : TaskRef} (hpc : S.pc c = .erases r index)
      (hlt : index < S.tasks.length) :
      Step env S c ({ S with tasks := S.tasks.eraseIdx index }.goto c .outside)
  | spawnWaits {S : State} {c : ℕ} (hpc : S.pc c = .outside) : Step env S c (S.goto c .spawnWaits)
  | spawnGets {S : State} {c : ℕ} (hpc : S.pc c = .spawnWaits) (hlock : Grants S.tasksLock .write) :
      Step env S c (S.goto c .spawns)
  | spawns {S : State} {c : ℕ} (procstate : TaskProcState) (memoryMap : MemoryMap)
      (hpc : S.pc c = .spawns) : Step env S c ((S.push procstate memoryMap).goto c .outside)
  /-- The program could not be loaded. -/
  | spawnFails {S : State} {c : ℕ} (hpc : S.pc c = .spawns) : Step env S c (S.goto c .outside)
  /-- `exec` panics. -/
  | spawnPanics {S : State} {c : ℕ} (hpc : S.pc c = .spawns) : Step env S c (S.goto c .halted)
  /-- `syscall_handle_2` writes the registers of the current task; `GetPid` and `continue_current`
  read it. -/
  | locksOwn {S : State} {c : ℕ} {r : TaskRef} {m : LockMode} (hpc : S.pc c = .outside)
      (hm : m = .read ∨ m = .write) (hcur : S.current c = some r)
      (hlock : Grants (S.taskLock r) m) : Step env S c (S.goto c (.own r m))
  | reads {S : State} {c : ℕ} {r : TaskRef} (hpc : S.pc c = .own r .read) :
      Step env S c (S.goto c .outside)
  | writes {S : State} {c : ℕ} {r : TaskRef} (procstate : TaskProcState)
      (hpc : S.pc c = .own r .write) :
      Step env S c ((S.setRegisters r procstate).goto c .outside)

/-- The cores have come up, and none has taken an interrupt yet. -/
structure Start (S : State) : Prop where
  tasks : S.tasks = []
  clock : S.clock = 0
  current : ∀ c, S.current c = none
  pc : ∀ c, S.pc c = .outside

/-! ## A core that is alone in the scheduler -/

section Alone

variable {S : State} {c : ℕ} {pc pc' : Pc}

theorem goto_goto : (S.goto c pc).goto c pc' = S.goto c pc' := by
  simp [State.goto, Function.update_idem]

theorem goto_outside (hout : ∀ c, S.pc c = .outside) : S.goto c .outside = S := by
  have hpc : Function.update S.pc c .outside = S.pc := by
    rw [← hout c, Function.update_eq_self]
  simp [State.goto, hpc]

/-- The program counter that a core leaves is forgotten, whatever it wrote to a task in between.
With the next three lemmas, a run of one core is a sequence of writes with one program counter
behind it. -/
theorem setTask_goto {r : TaskRef} {t : Task} :
    ((S.goto c pc).setTask r t).goto c pc' = (S.setTask r t).goto c pc' := by
  simp [State.goto, State.setTask, Function.update_idem]

theorem setCurrent_goto {o : Option TaskRef} :
    ((S.goto c pc).setCurrent c o).goto c pc' = (S.setCurrent c o).goto c pc' := by
  simp [State.goto, State.setCurrent, Function.update_idem]

theorem push_goto {procstate : TaskProcState} {memoryMap : MemoryMap} :
    ((S.goto c pc).push procstate memoryMap).goto c pc' =
      (S.push procstate memoryMap).goto c pc' := by
  simp [State.goto, State.push, Function.update_idem]

theorem count_goto : ((S.goto c pc).count c).goto c pc' = (S.count c).goto c pc' := by
  simp [State.goto, State.count, State.setTickMiss, Function.update_idem]

variable (hout : ∀ c, S.pc c = .outside)

include hout

/-- Only one core is in the scheduler. -/
theorem tasksLock_alone {c' : ℕ} {m : LockMode} (h : (S.goto c pc).tasksLock c' m) :
    c' = c ∧ pc.tasksGuard = some m := by
  by_cases hc : c' = c
  · subst hc
    exact ⟨rfl, by simpa [State.tasksLock] using h⟩
  · simp [State.tasksLock, State.goto_pc_of_ne hc, hout, Pc.tasksGuard] at h

theorem grants_tasks (hguard : pc.tasksGuard = none) (m : LockMode) :
    Grants (S.goto c pc).tasksLock m := by
  by_contra hno
  obtain ⟨c', m', hm⟩ := exists_of_not_grants hno
  have hsome := (tasksLock_alone hout hm).2
  rw [hguard] at hsome
  cases hsome

theorem alone_tasks : Alone (S.goto c pc).tasksLock c :=
  fun _ _ hne hm => hne (tasksLock_alone hout hm).1

theorem grants_task {r : TaskRef} (hguard : ∀ m, (r, m) ∉ pc.guards) (m : LockMode) :
    Grants ((S.goto c pc).taskLock r) m := by
  by_contra hno
  obtain ⟨c', m', hm⟩ := exists_of_not_grants hno
  by_cases hc : c' = c
  · subst hc
    exact hguard m' (by simpa [State.taskLock] using hm)
  · simp [State.taskLock, State.goto_pc_of_ne hc, hout, Pc.guards] at hm

/-- Every lock is free. -/
theorem grants_tasks_idle (m : LockMode) : Grants S.tasksLock m := by
  have hgrants : Grants (S.goto 0 .outside).tasksLock m := grants_tasks hout rfl m
  rwa [goto_outside hout] at hgrants

theorem grants_task_idle (r : TaskRef) (m : LockMode) : Grants (S.taskLock r) m := by
  have hgrants : Grants ((S.goto 0 .outside).taskLock r) m :=
    grants_task hout (by simp [Pc.guards]) m
  rwa [goto_outside hout] at hgrants

end Alone

end HeliumOS.Proc.Locking
