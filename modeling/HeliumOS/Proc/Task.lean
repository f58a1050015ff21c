import HeliumOS.Dev.Framebuffer
import HeliumOS.Proc.MemoryMap

/-!
# Tasks and the Scheduler

`proc/task.rs`, with the parts of `proc/mod.rs`, `proc/syscall.rs` and `interrupts/lapic/timer.rs`
that drive it.

A `TaskRef` is an `Arc<RwLock<Task>>`.  References point into an arena that keeps the strong count
of each task, and a task is dropped with its last reference.  The functions call `palloc` and
`pfree`, so they are programs over the pool of frames; everything else they share is in `System`.

Locks that block are taken to be obtained.  The attempts that may fail are inputs: `Locks.tasks`
for the `try_upgradeable_read` of `TASKS`, and `Locks.write i` for the `try_write` of task `i`.
-/

namespace HeliumOS.Proc

open HeliumOS.Lib HeliumOS.Mem HeliumOS.Mem.Virt HeliumOS.Elf HeliumOS.Dev

/-! ## State -/

/-- `TaskProcState`. -/
structure TaskProcState where
  rip : BitVec 64
  rflags : BitVec 64
  codeSeg : BitVec 64
  dataSeg : BitVec 64
  rsp : BitVec 64
  rbp : BitVec 64
  rsi : BitVec 64
  rdi : BitVec 64
  r8 : BitVec 64
  r9 : BitVec 64
  r10 : BitVec 64
  r11 : BitVec 64
  r12 : BitVec 64
  r13 : BitVec 64
  r14 : BitVec 64
  r15 : BitVec 64
  rax : BitVec 64
  rbx : BitVec 64
  rcx : BitVec 64
  rdx : BitVec 64
  deriving DecidableEq, Repr, Inhabited

/-- `TaskProcState::new`.  The segments are those of the user in the table of `gdt.rs`. -/
def TaskProcState.new (entrypoint : VirtAddr) : TaskProcState where
  rip := BitVec.ofNat 64 entrypoint.val
  rflags := 0x200
  codeSeg := 0x23
  dataSeg := 0x1b
  rsp := BitVec.ofNat 64 USERSTACK_BOTTOM
  rbp := 0
  rsi := 0
  rdi := 0
  r8 := 0
  r9 := 0
  r10 := 0
  r11 := 0
  r12 := 0
  r13 := 0
  r14 := 0
  r15 := 0
  rax := 0
  rbx := 0
  rcx := 0
  rdx := 0

/-- `TaskState`. -/
inductive TaskState where
  | running (since : ℕ)
  | pending
  deriving DecidableEq, Repr

/-- `Task`. -/
structure Task where
  id : ℕ
  priority : ℕ
  procstate : TaskProcState
  memoryMap : MemoryMap
  state : TaskState

/-- `TaskRef`. -/
abbrev TaskRef := ℕ

/-- What a `TaskRef` points to. -/
structure TaskArc where
  strong : ℕ
  task : Task

/-- `ProcInfo`, as far as the scheduler uses it. -/
structure ProcInfo where
  tickMiss : ℕ
  currentTask : Option TaskRef
  scheduleQuantum : ℕ
  activeMapping : Option ℕ

/-- The shared state of the scheduler: virtual memory, the tasks by reference, `TASKS`, `CLOCK`,
`IDCOUNT` and `PROC_TABLE`. -/
structure System where
  vm : Vm
  arena : TaskRef → TaskArc
  nextRef : TaskRef
  tasks : List TaskRef
  clock : ℕ
  idCount : ℕ
  procs : ℕ → Option ProcInfo

/-- What does not change: the files of the initrd, the number of cores, and the core that the boot
loader calls the primary one. -/
structure Env where
  openFile : String → Option File
  numcores : ℕ
  bspid : ℕ

/-- Two cores and an empty initrd.  Core 1 is the primary one. -/
def noFiles : Env := ⟨fun _ => none, 2, 1⟩

/-- The outcome of the lock attempts of one `tick`. -/
structure Locks where
  tasks : Bool
  write : ℕ → Bool

namespace System

/-- The task behind a reference. -/
def task (sys : System) (r : TaskRef) : Task := (sys.arena r).task

/-- `ProcInfo::instance`. -/
def procInfo (sys : System) (core : ℕ) : Except Panic ProcInfo :=
  unwrap .noProcInfo (sys.procs core)

/-- The `current_task` of a core. -/
def current (sys : System) (core : ℕ) : Option TaskRef := (sys.procs core).bind ProcInfo.currentTask

def setProc (sys : System) (core : ℕ) (pinfo : ProcInfo) : System :=
  { sys with procs := Function.update sys.procs core (some pinfo) }

def setTask (sys : System) (r : TaskRef) (task : Task) : System :=
  { sys with arena := Function.update sys.arena r { sys.arena r with task } }

def setStrong (sys : System) (r : TaskRef) (strong : ℕ) : System :=
  { sys with arena := Function.update sys.arena r { sys.arena r with strong } }

/-- `Arc::clone`. -/
def arcClone (sys : System) (r : TaskRef) : System := sys.setStrong r ((sys.arena r).strong + 1)

/-- The next identifier from `IDCOUNT`, and a pending task that carries it at the end of `TASKS`. -/
def push (sys : System) (procstate : TaskProcState) (memoryMap : MemoryMap) : System :=
  { sys with
    idCount := sys.idCount + 1
    arena := Function.update sys.arena sys.nextRef
      ⟨1, ⟨sys.idCount + 1, 0, procstate, memoryMap, .pending⟩⟩
    nextRef := sys.nextRef + 1
    tasks := sys.tasks ++ [sys.nextRef] }

section Lemmas

variable (sys : System) (core : ℕ) (pinfo : ProcInfo) (r : TaskRef) (t : Task) (strong : ℕ)

@[simp] theorem setProc_task : (sys.setProc core pinfo).task = sys.task := rfl
@[simp] theorem setProc_arena : (sys.setProc core pinfo).arena = sys.arena := rfl

@[simp] theorem setProc_procs_self : (sys.setProc core pinfo).procs core = some pinfo :=
  Function.update_self ..

theorem setProc_procs_of_ne {core' : ℕ} (h : core' ≠ core) :
    (sys.setProc core pinfo).procs core' = sys.procs core' := Function.update_of_ne h ..

@[simp] theorem setProc_current_self :
    (sys.setProc core pinfo).current core = pinfo.currentTask := by
  simp [current]

theorem setProc_current_of_ne {core' : ℕ} (h : core' ≠ core) :
    (sys.setProc core pinfo).current core' = sys.current core' := by
  simp [current, setProc_procs_of_ne, h]

@[simp] theorem setTask_current : (sys.setTask r t).current = sys.current := rfl

@[simp] theorem setTask_task_self : (sys.setTask r t).task r = t := by simp [task, setTask]

theorem setTask_task_of_ne {r' : TaskRef} (h : r' ≠ r) :
    (sys.setTask r t).task r' = sys.task r' := by
  simp [task, setTask, h]

@[simp] theorem setTask_strong (r' : TaskRef) :
    ((sys.setTask r t).arena r').strong = (sys.arena r').strong := by
  by_cases h : r' = r
  · subst h
    simp [setTask]
  · simp [setTask, h]

@[simp] theorem setStrong_current : (sys.setStrong r strong).current = sys.current := rfl

@[simp] theorem setStrong_task : (sys.setStrong r strong).task = sys.task := by
  funext r'
  by_cases h : r' = r
  · subst h
    simp [task, setStrong]
  · simp [task, setStrong, h]

@[simp] theorem setStrong_strong_self : ((sys.setStrong r strong).arena r).strong = strong := by
  simp [setStrong]

theorem setStrong_strong_of_ne {r' : TaskRef} (h : r' ≠ r) :
    ((sys.setStrong r strong).arena r').strong = (sys.arena r').strong := by
  simp [setStrong, h]

section Push

variable (procstate : TaskProcState) (memoryMap : MemoryMap)

@[simp] theorem push_arena_self : (sys.push procstate memoryMap).arena sys.nextRef =
    ⟨1, ⟨sys.idCount + 1, 0, procstate, memoryMap, .pending⟩⟩ := Function.update_self ..

theorem push_arena_of_ne {r' : TaskRef} (h : r' ≠ sys.nextRef) :
    (sys.push procstate memoryMap).arena r' = sys.arena r' := Function.update_of_ne h ..

@[simp] theorem push_task_self : (sys.push procstate memoryMap).task sys.nextRef =
    ⟨sys.idCount + 1, 0, procstate, memoryMap, .pending⟩ := by simp [task]

theorem push_task_of_ne {r' : TaskRef} (h : r' ≠ sys.nextRef) :
    (sys.push procstate memoryMap).task r' = sys.task r' := by
  rw [task, push_arena_of_ne _ _ _ h, task]

theorem mem_push_tasks {r' : TaskRef} :
    r' ∈ (sys.push procstate memoryMap).tasks ↔ r' ∈ sys.tasks ∨ r' = sys.nextRef := by
  simp [push]

end Push

end Lemmas

end System

/-- The drop of a `TaskRef`: the last one drops the task, and with it its mappings. -/
def arcDrop (r : TaskRef) (sys : System) : Kernel System :=
  let strong := (sys.arena r).strong - 1
  -- `Drop for MemoryMapping`, one mapping after the other
  if strong = 0 then do
    dropMappings (sys.task r).memoryMap.mappings
    return sys.setStrong r strong
  else return sys.setStrong r strong

/-! ## Creation of tasks -/

/-- `Task::new_locked`. -/
def newLocked (procstate : TaskProcState) (memoryMap : MemoryMap) (sys : System) :
    Except Panic (ℕ × System) := do
  let id ← checkedAdd 64 Panic.idOverflow sys.idCount 1
  .ok (id, sys.push procstate memoryMap)

/-- `Task::exec`.  Every early return drops the memory map. -/
def exec (core : ℕ) (elf : ElfFile) (sys : System) : Kernel (ExecResult × System) := do
  match ← load core elf sys.vm with
  | (.error e, map, vm) => do
    dropMappings map.mappings
    return (e, { sys with vm })
  | (.ok (), map, vm) => do
    let (id, sys) ← newLocked (.new elf.header.entrypoint) map { sys with vm }
    return (.success id, sys)

/-- `Task::exec_raw`. -/
def execRaw (core : ℕ) (content : File) (sys : System) : Kernel (ExecResult × System) :=
  match ElfFile.parse content with
  | some elf => exec core elf sys
  | none => return (.parseError, sys)

/-- `Task::exec_initrd`. -/
def execInitrd (env : Env) (core : ℕ) (path : String) (sys : System) :
    Kernel (ExecResult × System) :=
  match env.openFile path with
  | some content => execRaw core content sys
  | none => return (.fileError, sys)

/-- The program that `exec_initrd` finds behind a path. -/
def Env.program (env : Env) (path : String) : Option ElfFile :=
  (env.openFile path).bind ElfFile.parse

/-! ## The timer tick -/

/-- `MAX_TICK_MISS`. -/
def MAX_TICK_MISS : ℕ := 10

/-- `Task::life_expectancy`. -/
def lifeExpectancy (env : Env) (task : Task) : Except Panic ℕ := do
  -- `(priority + 10) * numcores`
  let sum ← checkedAdd 64 Panic.lifeOverflow task.priority 10
  checkedMul 64 Panic.lifeOverflow sum env.numcores

/-- Save the registers of the interrupted task, if there is one. -/
def saveState (core : ℕ) (procState : TaskProcState) (sys : System) : System :=
  match sys.current core with
  | some r => sys.setTask r { sys.task r with procstate := procState }
  | none => sys

/-- Run `/bin/init` when no task exists. -/
def startInit (env : Env) (core : ℕ) (sys : System) : Kernel System := do
  if sys.tasks = [] then do
    match ← execInitrd env core "/bin/init" sys with
    | (.success _, sys) => return sys
    | _ => .fail .noInit
  else return sys

/-- The closure of `take_if`: has the task behind `r` used up its time? -/
def expired (env : Env) (sys : System) (r : TaskRef) : Except Panic Bool :=
  match (sys.task r).state with
  | .pending => .error .notRunning
  | .running since => do
    let elapsed ← checkedSub Panic.clockUnderflow sys.clock since
    let life ← lifeExpectancy env (sys.task r)
    .ok (decide (life ≤ elapsed))

/-- Release the current task when its time is up. -/
def releaseExpired (env : Env) (core : ℕ) (sys : System) : Kernel System := do
  let pinfo ← sys.procInfo core
  match pinfo.currentTask with
  | none => return sys
  | some r => do
    if ← (expired env sys r : Except Panic Bool) then do
      let sys := sys.setProc core { pinfo with currentTask := none }
      let sys := sys.setTask r { sys.task r with state := .pending }
      arcDrop r sys
    else return sys

/-- The selection loop, from index `i` on.  A better task replaces the guard of the best one but
not its index. -/
def selectFrom (sys : System) (locks : Locks) :
    List TaskRef → ℕ → Option (ℕ × TaskRef) → Option (ℕ × TaskRef)
  | [], _, best => best
  | r :: rs, i, best =>
    -- `try_write` fails, or the task is not pending: `continue`
    if locks.write i = false then selectFrom sys locks rs (i + 1) best
    else if (sys.task r).state ≠ .pending then selectFrom sys locks rs (i + 1) best
    else
      match best with
      | some (j, b) =>
        if (sys.task b).priority < (sys.task r).priority then
          -- the guard is replaced, and the index stays
          selectFrom sys locks rs (i + 1) (some (j, r))
        else selectFrom sys locks rs (i + 1) best
      | none => selectFrom sys locks rs (i + 1) (some (i, r))

/-- Look for a task to run, unless there still is one. -/
def pickTask (core clock : ℕ) (locks : Locks) (sys : System) : Except Panic System := do
  let pinfo ← sys.procInfo core
  match pinfo.currentTask with
  | some _ => .ok sys
  | none =>
    match selectFrom sys locks sys.tasks 0 none with
    | none => .ok sys
    | some (index, guard) =>
      -- the state is set through the guard, and the reference is found by the index
      let sys := sys.setTask guard { sys.task guard with state := .running clock }
      let r := sys.tasks.getD index guard
      let sys := sys.arcClone r
      .ok (sys.setProc core { pinfo with currentTask := some r })

/-- The part of `tick` up to the `take_if`, once the lock on `TASKS` is held. -/
def tickBegin (env : Env) (core : ℕ) (procState : TaskProcState) (sys : System) :
    Kernel System := do
  let pinfo ← sys.procInfo core
  let sys := sys.setProc core { pinfo with tickMiss := 0 }
  -- `CLOCK.fetch_add`, which wraps around
  let sys := { sys with clock := (sys.clock + 1) % 2 ^ 64 }
  startInit env core (saveState core procState sys)

/-- `tick` once the lock on `TASKS` is held. -/
def tickLocked (env : Env) (core : ℕ) (procState : TaskProcState) (locks : Locks) (sys : System) :
    Kernel System := do
  -- `fetch_add` returns the old value
  let clock := sys.clock
  let sys ← tickBegin env core procState sys
  let sys ← releaseExpired env core sys
  pickTask core clock locks sys

/-- Is the lock on `TASKS` obtained?  After enough misses `tick` waits for it. -/
def ProcInfo.obtains (pinfo : ProcInfo) (locks : Locks) : Bool :=
  decide (MAX_TICK_MISS < pinfo.tickMiss) || locks.tasks

/-- `tick`. -/
def tick (env : Env) (core : ℕ) (procState : TaskProcState) (locks : Locks) (sys : System) :
    Kernel System := do
  let pinfo ← sys.procInfo core
  if pinfo.obtains locks then tickLocked env core procState locks sys
  else return sys.setProc core { pinfo with tickMiss := pinfo.tickMiss + 1 }

/-! ## Leaving the kernel -/

/-- Writes to the local APIC. -/
inductive LapicWrite where
  | timerReset (init : ℕ)
  | eoi
  deriving DecidableEq, Repr

/-- Where the core goes. -/
inductive Target where
  | user (task : TaskRef) (state : TaskProcState)
  | eventLoop
  deriving DecidableEq

/-- `MemoryMap::apply`. -/
def MemoryMap.apply (map : MemoryMap) (core : ℕ) (sys : System) : Kernel System := do
  let pinfo ← sys.procInfo core
  if pinfo.activeMapping = some map.id then return sys
  else do
    let vm ← applyMappings map.mappings sys.vm
    return { sys with vm }.setProc core { pinfo with activeMapping := some map.id }

/-- `continue_current`: the writes to the local APIC, and the state that is applied. -/
def continueCurrent (core : ℕ) (resetTimer : Bool) (sys : System) :
    Kernel ((List LapicWrite × Target) × System) := do
  let pinfo ← sys.procInfo core
  match pinfo.currentTask with
  -- the event loop is entered without a write to the local APIC
  | none => return (([], .eventLoop), sys)
  | some r => do
    let sys ← (sys.task r).memoryMap.apply core sys
    let writes := if resetTimer then [.timerReset (pinfo.scheduleQuantum % 2 ^ 32), .eoi] else []
    return ((writes, .user r (sys.task r).procstate), sys)

/-- The pixel that `timer_inter_2` draws on the primary core.  It moves with `COUNT`, and changes
its colour every ten interrupts. -/
def drawTick (env : Env) (core count : ℕ) (fb : Framebuffer) (sys : System) :
    Except Panic (ℕ × Framebuffer × System) :=
  if core = env.bspid then do
    let color := if count / 10 % 2 = 0 then .ofRgb 0 0 255 else .ofRgb 255 0 0
    let (fb, vm) ← fb.setPixel (1 + count % 10) 50 color sys.vm
    -- `fetch_add` wraps around
    .ok ((count + 1) % 2 ^ 64, fb, { sys with vm })
  else .ok (count, fb, sys)

/-- `timer_inter_2`: it ticks, draws, and continues. -/
def timerInter2 (env : Env) (core : ℕ) (procState : TaskProcState) (locks : Locks) (count : ℕ)
    (fb : Framebuffer) (sys : System) :
    Kernel ((List LapicWrite × Target) × ℕ × Framebuffer × System) := do
  let sys ← tick env core procState locks sys
  let (count, fb, sys) ← drawTick env core count fb sys
  let ((writes, target), sys) ← continueCurrent core true sys
  -- `timer_reset(usize::MAX)` comes first; the register has 32 bits
  return ((.timerReset ((2 ^ 64 - 1) % 2 ^ 32) :: writes, target), count, fb, sys)

/-! ## System calls -/

/-- `exit_current`. -/
def exitCurrent (core : ℕ) (sys : System) : Kernel System := do
  let pinfo ← sys.procInfo core
  match pinfo.currentTask with
  | none => return sys
  | some r => do
    let sys := sys.setProc core { pinfo with currentTask := none }
    match sys.tasks.findIdx? fun r' => (sys.task r').id = (sys.task r).id with
    | none => arcDrop r sys
    | some index => do
      -- the reference that `Vec::remove` returns is dropped at once, the taken one at the end
      let removed := sys.tasks.getD index r
      let sys ← arcDrop removed { sys with tasks := sys.tasks.eraseIdx index }
      arcDrop r sys

/-- `SyscallResult`, as `Spawn` returns it. -/
inductive SpawnResult where
  | success (id : ℕ)
  | failed
  deriving DecidableEq, Repr

/-- The handler of `Syscall::Spawn`. -/
def spawn (env : Env) (core : ℕ) (path : String) (sys : System) :
    Kernel (SpawnResult × System) := do
  match ← execInitrd env core path sys with
  | (.success id, sys) => return (.success id, sys)
  | (_, sys) => return (.failed, sys)

end HeliumOS.Proc
