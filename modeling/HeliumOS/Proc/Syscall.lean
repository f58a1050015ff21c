import HeliumOS.Lib.Utf8
import HeliumOS.Dev.Framebuffer
import HeliumOS.Proc.Progress
import HeliumOS.Proc.Scheduler

/-!
# System Calls

`proc/syscall.rs`: from the registers of a task to the handler and back to the registers.

The path of `Spawn` is a slice of user memory.  The source takes it for a string without looking at
the bytes; here reading it fails where it is not mapped or no UTF-8.

- `Calling` is the situation in which a task calls, and `Serves` what the call then still needs:
  only the arguments of `DebugDraw` matter.
- `syscall_returns_iff`: the handler and the write-back return exactly when a call is served.
- `far_draw_panics`: one system call panics the kernel on every framebuffer.
-/

namespace HeliumOS.Proc

open HeliumOS.Lib HeliumOS.Lib.AllocProg HeliumOS.Mem HeliumOS.Mem.Virt HeliumOS.Elf HeliumOS.Dev

/-! ## Definitions -/

/-- `Syscall`. -/
inductive Syscall where
  | exit (exitcode : BitVec 64)
  | getPid
  | debugDraw (x y r g b : BitVec 64)
  | spawn (path len : BitVec 64)
  deriving DecidableEq, Repr

/-- `SyscallResult`. -/
inductive SyscallResult where
  | success (o0 o1 o2 o3 o4 o5 : BitVec 64)
  | invalid
  | failed
  deriving DecidableEq, Repr

/-- `Syscall::try_from`. -/
def Syscall.tryFrom (state : TaskProcState) : Option Syscall :=
  match state.rax.toNat with
  | 0 => some (.exit state.rdi)
  | 1 => some .getPid
  | 2 => some (.debugDraw state.rdi state.rsi state.rdx state.r10 state.r8)
  | 3 => some (.spawn state.rdi state.rsi)
  | _ => none

/-- `str::from_raw_parts`.  In the debug profile the pointer is checked not to be null. -/
def strFromRawParts (vm : Vm) (path len : ℕ) : Except Panic String := do
  ensure .pathInvalid (path ≠ 0)
  let bytes ← loadBytes vm path len
  unwrap .pathInvalid (fromUtf8 bytes)

/-- `SyscallHandler::handle`. -/
def Syscall.handle (env : Env) (core : ℕ) (fb : Framebuffer) (sys : System) :
    Syscall → Kernel (SyscallResult × Framebuffer × System)
  | .exit _ => do
    -- the exit code is not used, and there is no task left to return to
    let sys ← exitCurrent core sys
    return (.invalid, fb, sys)
  | .getPid => do
    let pinfo ← sys.procInfo core
    let r ← unwrap Panic.getPidNoTask pinfo.currentTask
    return (.success (BitVec.ofNat 64 (sys.task r).id) 0 0 0 0 0, fb, sys)
  | .debugDraw x y r g b => do
    let (fb, vm) ← fb.setPixel x.toNat y.toNat
      -- `as u8`
      (.ofRgb (r.setWidth 8) (g.setWidth 8) (b.setWidth 8)) sys.vm
    return (.success 0 0 0 0 0 0, fb, { sys with vm })
  | .spawn path len => do
    let path ← strFromRawParts sys.vm path.toNat len.toNat
    match ← Proc.spawn env core path sys with
    | (.success id, sys) => return (.success (BitVec.ofNat 64 id) 0 0 0 0 0, fb, sys)
    | (.failed, sys) => return (.failed, fb, sys)

/-- The registers that a result leaves. -/
def SyscallResult.writeBack (result : SyscallResult) (state : TaskProcState) : TaskProcState :=
  match result with
  | .success o0 o1 o2 o3 o4 o5 =>
    { state with rax := 0, rdi := o0, rsi := o1, rdx := o2, r10 := o3, r8 := o4, r9 := o5 }
  | _ => { state with rax := 1 }

/-- Decode the registers and run the handler. -/
def syscallDispatch (env : Env) (core : ℕ) (state : TaskProcState) (fb : Framebuffer)
    (sys : System) :
    Kernel (SyscallResult × Framebuffer × System) :=
  match Syscall.tryFrom state with
  | some call => call.handle env core fb sys
  | none => return (.invalid, fb, sys)

/-- `syscall_handle_2` up to `continue_current`.  The last component is the task to resume: if the
system call has ended its task, the core goes to the event loop. -/
def syscallServe (env : Env) (core : ℕ) (state : TaskProcState) (fb : Framebuffer) (sys : System) :
    Kernel (Framebuffer × System × Option TaskRef) := do
  let pinfo ← sys.procInfo core
  let r ← unwrap Panic.syscallNoTask pinfo.currentTask
  let sys := sys.setTask r { sys.task r with procstate := state }
  let (result, fb, sys) ← syscallDispatch env core state fb sys
  let pinfo ← sys.procInfo core
  match pinfo.currentTask with
  | none => return (fb, sys, none)
  | some r =>
    let task := sys.task r
    return (fb, sys.setTask r { task with procstate := result.writeBack task.procstate }, some r)

/-- `syscall_handle_2`. -/
def syscallHandle2 (env : Env) (core : ℕ) (state : TaskProcState) (fb : Framebuffer)
    (sys : System) :
    Kernel ((List LapicWrite × Target) × Framebuffer × System) := do
  match ← syscallServe env core state fb sys with
  | (fb, sys, none) => return (([], .eventLoop), fb, sys)
  | (fb, sys, some _) => do
    let (out, sys) ← continueCurrent core false sys
    return (out, fb, sys)

/-! ## When a system call returns -/

/-- A task is running on the core and has made a system call.  If it is `Spawn`, its path can be
read and names no file or a program that can be loaded, and there are frames for the program. -/
structure Calling (env : Env) (core : ℕ) (state : TaskProcState) (sys : System)
    (pmm : PhysicalFrameAllocator) : Prop where
  core_le : core ≤ 255
  running : ∃ pinfo r, sys.procs core = some pinfo ∧ pinfo.currentTask = some r
  able : Able sys.vm pmm 0
  path : state.rax = 3 →
    ∃ path, strFromRawParts sys.vm state.rdi.toNat state.rsi.toNat = .ok path ∧
      ∀ file elf, env.openFile path = some file → ElfFile.parse file = some elf →
        Loadable elf ∧ HasFree (4 * pageTotal elf.regions) pmm.free

/-- What a system call needs: `DebugDraw` a pixel that can be drawn, and `Spawn` of a program an
identifier that is left. -/
structure Serves (env : Env) (state : TaskProcState) (fb : Framebuffer) (sys : System) : Prop where
  draw : state.rax = 2 → fb.Draws sys.vm state.rdi.toNat state.rsi.toNat
  spawn : state.rax = 3 → ∀ path file elf,
    strFromRawParts sys.vm state.rdi.toNat state.rsi.toNat = .ok path →
    env.openFile path = some file → ElfFile.parse file = some elf → sys.idCount + 1 < 2 ^ 64

section Returns

variable {M F F' : Set PhysFrame} {env : Env} {core : ℕ} {state : TaskProcState} {fb : Framebuffer}
  {sys sys' : System} {pmm : PhysicalFrameAllocator}

theorem Syscall.tryFrom_eq_some {call : Syscall} (h : Syscall.tryFrom state = some call) :
    call = .exit state.rdi ∨ call = .getPid ∨
      (state.rax = 2 ∧ call = .debugDraw state.rdi state.rsi state.rdx state.r10 state.r8) ∨
      (state.rax = 3 ∧ call = .spawn state.rdi state.rsi) := by
  unfold Syscall.tryFrom at h
  split at h
  · exact .inl (Option.some.inj h).symm
  · exact .inr (.inl (Option.some.inj h).symm)
  · next hrax => exact .inr (.inr (.inl ⟨BitVec.eq_of_toNat_eq hrax, (Option.some.inj h).symm⟩))
  · next hrax => exact .inr (.inr (.inr ⟨BitVec.eq_of_toNat_eq hrax, (Option.some.inj h).symm⟩))
  · exact absurd h (by simp)

theorem procs_arcDrop {r : TaskRef} (h : Returns M (arcDrop r sys) F sys' F') :
    sys'.procs = sys.procs := by
  obtain ⟨rfl, -⟩ := returns_arcDrop.mp h
  rfl

/-- `exit_current` leaves the core with its `ProcInfo`. -/
theorem exitCurrent_ensures {pinfo : ProcInfo} (hpinfo : sys.procs core = some pinfo) :
    Ensures M (exitCurrent core sys) F fun sys' _ => ∃ pinfo', sys'.procs core = some pinfo' := by
  refine ⟨exitCurrent_safe hpinfo, fun sys' F' hret => ?_⟩
  obtain ⟨pinfo', hpinfo', h⟩ := exitCurrent_cases hret
  obtain ⟨-, rfl, -⟩ | ⟨r, -, ⟨-, hdrop⟩ | ⟨index, sys₁, F₁, -, hdrop, hdrop'⟩⟩ := h
  · exact ⟨pinfo', hpinfo'⟩
  · rw [procs_arcDrop hdrop]
    exact ⟨_, System.setProc_procs_self ..⟩
  · rw [procs_arcDrop hdrop', procs_arcDrop hdrop]
    exact ⟨_, System.setProc_procs_self ..⟩

/-- `Spawn` of no file, of no ELF file, or of a program for which there are frames. -/
theorem spawn_ensures {path : String} (hcore : core ≤ 255) (h : Workable 0 sys.vm F)
    (hids : ∀ file elf, env.openFile path = some file → ElfFile.parse file = some elf →
      sys.idCount + 1 < 2 ^ 64)
    (hpath : ∀ file elf, env.openFile path = some file → ElfFile.parse file = some elf →
      Loadable elf ∧ HasFree (4 * pageTotal elf.regions) F) :
    Ensures M (Proc.spawn env core path sys) F fun res _ => res.2.procs = sys.procs := by
  -- a file that is missing or cannot be parsed is refused without any change
  have hinitrd : Ensures M (execInitrd env core path sys) F
      fun res _ => res.2.procs = sys.procs := by
    unfold execInitrd execRaw
    split
    · next file hfile =>
      split
      · next elf helf =>
        obtain ⟨hloadable, hfree⟩ := hpath file elf hfile helf
        have hwork : Workable (0 + 4 * pageTotal elf.regions) sys.vm F :=
          ⟨h.ready, h.fresh, by rwa [Nat.zero_add]⟩
        refine (exec_loads hcore hloadable (hids file elf hfile helf) hwork).mono ?_
        rintro res F' ⟨map, vm, rfl, -⟩
        rfl
      · exact ensures_pure rfl
    · exact ensures_pure rfl
  apply hinitrd.bind
  rintro ⟨res, sys'⟩ F' hprocs
  cases res <;> exact ensures_pure hprocs

/-- A program that was spawned has got an identifier. -/
theorem ids_of_spawn {path : String} {file : File} {elf : ElfFile} {res : SpawnResult}
    (hcore : core ≤ 255) (h : Workable 0 sys.vm F) (hfile : env.openFile path = some file)
    (helf : ElfFile.parse file = some elf) (hloadable : Loadable elf)
    (hfree : HasFree (4 * pageTotal elf.regions) F)
    (hret : Returns M (Proc.spawn env core path sys) F (res, sys') F') :
    sys.idCount + 1 < 2 ^ 64 := by
  obtain ⟨res', hexec⟩ := spawn_cases hret
  simp only [execInitrd, execRaw, hfile, helf, exec, returns_bind] at hexec
  obtain ⟨⟨r, map, vm⟩, F₁, hload, hexec⟩ := hexec
  -- loading succeeds, so the branch that takes an identifier was run
  have hwork : Workable (0 + 4 * pageTotal elf.regions) sys.vm F :=
    ⟨h.ready, h.fresh, by rwa [Nat.zero_add]⟩
  obtain ⟨rfl, -⟩ := (load_ensures hcore hloadable hwork).post _ _ hload
  simp only [returns_bind, returns_lift] at hexec
  obtain ⟨⟨id, sys₁⟩, F₂, ⟨hnew, -⟩, -⟩ := hexec
  exact (newLocked_eq_ok.mp hnew).1

theorem Calling.workable (h : Calling env core state sys pmm) : Workable 0 sys.vm pmm.free :=
  .of_able h.able

/-- A system call that has what it needs is dispatched, and the core keeps its `ProcInfo`. -/
theorem syscallDispatch_ensures (h : Calling env core state sys pmm)
    (hs : Serves env state fb sys) :
    Ensures pmm.managed (syscallDispatch env core state fb sys) pmm.free
      fun res _ => ∃ pinfo, res.2.2.procs core = some pinfo := by
  obtain ⟨pinfo, r, hpinfo, hcurrent⟩ := h.running
  unfold syscallDispatch
  split
  · next call hcall =>
    obtain rfl | rfl | ⟨hrax, rfl⟩ | ⟨hrax, rfl⟩ := Syscall.tryFrom_eq_some hcall
    · -- `Exit`
      apply (exitCurrent_ensures hpinfo).bind
      rintro sys' F' hprocs
      exact ensures_pure hprocs
    · -- `GetPid`
      refine ensures_lift_bind (procInfo_eq_ok.mpr hpinfo) ?_
      exact ensures_lift_bind (unwrap_eq_ok.mpr hcurrent) (ensures_pure ⟨_, hpinfo⟩)
    · -- `DebugDraw`
      obtain ⟨⟨fb', vm⟩, hset⟩ := setPixel_returns_iff.mpr (hs.draw hrax)
      exact ensures_lift_bind hset (ensures_pure ⟨_, hpinfo⟩)
    · -- `Spawn`
      obtain ⟨path, hread, hpath⟩ := h.path hrax
      refine ensures_lift_bind hread ?_
      apply (spawn_ensures h.core_le h.workable (fun file elf => hs.spawn hrax _ file elf hread)
        hpath).bind
      rintro ⟨res, sys'⟩ F' hprocs
      cases res <;> exact ensures_pure ⟨pinfo, by rwa [← hprocs] at hpinfo⟩
  · exact ensures_pure ⟨pinfo, hpinfo⟩

/-- A system call that was dispatched had what it needs. -/
theorem serves_of_dispatch {res : SyscallResult × Framebuffer × System}
    (h : Calling env core state sys pmm)
    (hret : Returns M (syscallDispatch env core state fb sys) pmm.free res F') :
    Serves env state fb sys where
  draw hrax := by
    have hcall : Syscall.tryFrom state =
        some (.debugDraw state.rdi state.rsi state.rdx state.r10 state.r8) := by
      simp [Syscall.tryFrom, hrax]
    simp only [syscallDispatch, hcall, Syscall.handle, returns_bind, returns_lift] at hret
    obtain ⟨r, -, ⟨hset, -⟩, -⟩ := hret
    exact setPixel_returns_iff.mp ⟨r, hset⟩
  spawn hrax path file elf hread hfile helf := by
    have hcall : Syscall.tryFrom state = some (.spawn state.rdi state.rsi) := by
      simp [Syscall.tryFrom, hrax]
    simp only [syscallDispatch, hcall, Syscall.handle, returns_bind, returns_lift, hread,
      Except.ok.injEq] at hret
    obtain ⟨_, _, ⟨rfl, rfl⟩, ⟨res', sys'⟩, F₁, hspawn, -⟩ := hret
    obtain ⟨path', hread', hpath⟩ := h.path hrax
    obtain rfl : path' = path := Except.ok.inj (hread'.symm.trans hread)
    obtain ⟨hloadable, hfree⟩ := hpath file elf hfile helf
    exact ids_of_spawn h.core_le h.workable hfile helf hloadable hfree hspawn

/-- What a system call that returns has done: it was dispatched for the task of the core, with the
registers stored, and the result was written back if the core still has a task. -/
theorem syscallServe_cases {fb' : Framebuffer} {sys' : System} {next : Option TaskRef}
    {F : Set PhysFrame}
    (h : Returns M (syscallServe env core state fb sys) F (fb', sys', next) F') :
    ∃ pinfo r, sys.procs core = some pinfo ∧ pinfo.currentTask = some r ∧
      ∃ result sys₁ pinfo₁,
        Returns M (syscallDispatch env core state fb
          (sys.setTask r { sys.task r with procstate := state })) F (result, fb', sys₁) F' ∧
        sys₁.procs core = some pinfo₁ ∧ next = pinfo₁.currentTask ∧
        sys' = match pinfo₁.currentTask with
          | none => sys₁
          | some r₁ => sys₁.setTask r₁
              { sys₁.task r₁ with procstate := result.writeBack (sys₁.task r₁).procstate } := by
  simp only [syscallServe, returns_bind, returns_lift, procInfo_eq_ok, unwrap_eq_ok] at h
  obtain ⟨pinfo, _, ⟨hpinfo, rfl⟩, r, _, ⟨hr, rfl⟩, ⟨result, fb₁, sys₁⟩, F₁, hdispatch, pinfo₁, _,
    ⟨hpinfo₁, rfl⟩, hback⟩ := h
  refine ⟨pinfo, r, hpinfo, hr, result, sys₁, pinfo₁, ?_⟩
  -- the write-back takes no frames
  cases hnext : pinfo₁.currentTask with
  | none =>
    simp only [hnext] at hback
    obtain ⟨hpair, rfl⟩ := returns_pure.mp hback
    cases hpair
    exact ⟨hdispatch, hpinfo₁, rfl, rfl⟩
  | some r₁ =>
    simp only [hnext] at hback
    obtain ⟨hpair, rfl⟩ := returns_pure.mp hback
    cases hpair
    exact ⟨hdispatch, hpinfo₁, rfl, rfl⟩

/-- **When a system call returns.** Whatever the registers of the task are, its system call is
decoded, handled and written back exactly when it has what it needs; otherwise the kernel panics. A
task can bring this about with `DebugDraw`, whose coordinates it chooses freely. -/
theorem syscall_returns_iff (h : Calling env core state sys pmm) :
    (∃ res pmm', (syscallServe env core state fb sys).run PhysicalFrameAllocator.pool pmm =
      .ok (res, pmm')) ↔ Serves env state fb sys := by
  obtain ⟨pinfo, r, hpinfo, hcurrent⟩ := h.running
  set sys₁ := sys.setTask r { sys.task r with procstate := state } with hsys₁
  -- storing the registers changes nothing that a system call needs
  have h₁ : Calling env core state sys₁ pmm := ⟨h.core_le, h.running, h.able, h.path⟩
  constructor
  · rintro ⟨res, pmm', hrun⟩
    obtain ⟨hret, -, -⟩ := run_returns PhysicalFrameAllocator.freeSet h.able.sound hrun
    obtain ⟨fb', sys', next⟩ := res
    obtain ⟨pinfo', r', hpinfo', hcurrent', result, sys₂, pinfo₂, hdispatch, -⟩ :=
      syscallServe_cases hret
    cases hpinfo.symm.trans hpinfo'
    cases hcurrent.symm.trans hcurrent'
    obtain ⟨hdraw, hspawn⟩ := serves_of_dispatch h₁ hdispatch
    exact ⟨hdraw, hspawn⟩
  · intro hs
    have hensures : Ensures pmm.managed (syscallServe env core state fb sys) pmm.free
        fun _ _ => True := by
      refine ensures_lift_bind (procInfo_eq_ok.mpr hpinfo) ?_
      refine ensures_lift_bind (unwrap_eq_ok.mpr hcurrent) ?_
      apply (syscallDispatch_ensures h₁ ⟨hs.draw, hs.spawn⟩).bind
      rintro ⟨result, fb', sys'⟩ F' ⟨pinfo', hpinfo'⟩
      refine ensures_lift_bind (procInfo_eq_ok.mpr hpinfo') ?_
      -- the task has exited, or its registers take the result
      cases pinfo'.currentTask <;> exact ensures_pure trivial
    obtain ⟨res, pmm', hrun, -⟩ := h.able.run hensures
    exact ⟨res, pmm', hrun⟩

end Returns

/-! ## A running task -/

/-- One core, which runs the one task. -/
def runningSystem : System := (bootSystem.push default .new).setProc 0 ⟨0, some 0, 1000, none⟩

theorem calling_runningSystem {state : TaskProcState} (hrax : state.rax ≠ 3) :
    Calling noFiles 0 state runningSystem freshPmm where
  core_le := Nat.zero_le _
  running := ⟨_, 0, rfl, rfl⟩
  able := able_fresh.mono (Nat.zero_le _)
  path h := absurd h hrax

/-- `GetPid`. -/
def getPidState : TaskProcState := { (default : TaskProcState) with rax := 1 }

/-- `DebugDraw` in the first row, as far to the right as a register can say. -/
def farDrawState : TaskProcState :=
  { (default : TaskProcState) with rax := 2, rdi := BitVec.allOnes 64 }

/-- A user panics the kernel with `DebugDraw`, whatever the framebuffer is: the offset of the pixel
overflows before the pixel is compared with the width. -/
theorem far_draw_panics : Calling noFiles 0 farDrawState runningSystem freshPmm ∧
    ∀ fb, (syscallServe noFiles 0 farDrawState fb runningSystem).run
      PhysicalFrameAllocator.pool freshPmm = .error .pixelOverflow := by
  refine ⟨calling_runningSystem (by decide), fun fb => ?_⟩
  have hset (pixel : PixelColor) (vm : Vm) :
      fb.setPixel (2 ^ 64 - 1) 0 pixel vm = .error .pixelOverflow := by
    have hrow : checkedMul 64 Panic.pixelOverflow 0 fb.scanline = .ok 0 := by simp [checkedMul]
    have hcolumn : checkedMul 64 Panic.pixelOverflow (2 ^ 64 - 1) 4 = .error .pixelOverflow := rfl
    rw [Framebuffer.setPixel, hrow, hcolumn]
    rfl
  have hcall : Syscall.tryFrom farDrawState = some (.debugDraw (BitVec.allOnes 64) 0 0 0 0) := rfl
  have hinfo : runningSystem.procInfo 0 = .ok ⟨0, some 0, 1000, none⟩ := rfl
  simp only [syscallServe, syscallDispatch, hcall, Syscall.handle, run_bind, run_lift, hinfo]
  change (fb.setPixel (2 ^ 64 - 1) 0 _ _ >>= _ >>= _ >>= _) = _
  rw [hset]
  rfl

theorem getPid_returns : Calling noFiles 0 getPidState runningSystem freshPmm ∧
    ∀ fb, ∃ res pmm', (syscallServe noFiles 0 getPidState fb runningSystem).run
      PhysicalFrameAllocator.pool freshPmm = .ok (res, pmm') := by
  have hcalling : Calling noFiles 0 getPidState runningSystem freshPmm :=
    calling_runningSystem (by decide)
  refine ⟨hcalling, fun fb => (syscall_returns_iff hcalling).mpr ⟨?_, ?_⟩⟩
  · exact fun h => absurd h (by decide)
  · exact fun h => absurd h (by decide)

end HeliumOS.Proc
