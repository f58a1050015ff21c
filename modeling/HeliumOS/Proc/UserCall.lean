import HeliumOS.Proc.Context
import HeliumOS.Proc.Interrupts
import HeliumOS.Proc.Timer

/-!
# System Calls Seen by User Code

`Syscall::call` in the crate `helium_syscall` loads registers, executes `syscall` and reads
registers back.  With the assembly of the kernel and `syscall_handle_2` in between, three statements
say whether the two sides agree.

- `request_decodes`: the kernel decodes what was asked.
- `result_survives_iff`: every result arrives but `Failed`, which has no encoding of its own.
- `registers_survive_iff`: `rcx` and `r11` come back changed, and `call` does not declare them.
-/

namespace HeliumOS.Proc

open HeliumOS.Lib HeliumOS.Lib.AllocProg HeliumOS.Lib.X86 HeliumOS.Mem HeliumOS.Dev

/-! ## The user's side -/

/-- `Syscall::ordinal`, derived: the place of the variant in the declaration. -/
def Syscall.ordinal : Syscall → ℕ
  | .exit _ => 0
  | .getPid => 1
  | .debugDraw .. => 2
  | .spawn .. => 3

/-- The six words that `Syscall::call` passes. -/
def Syscall.args : Syscall → BitVec 64 × BitVec 64 × BitVec 64 × BitVec 64 × BitVec 64 × BitVec 64
  | .exit exitcode => (exitcode, 0, 0, 0, 0, 0)
  | .getPid => (0, 0, 0, 0, 0, 0)
  | .debugDraw x y r g b => (x, y, r, g, b, 0)
  | .spawn path len => (path, len, 0, 0, 0, 0)

/-- The inputs of the assembly block of `Syscall::call`. -/
def Syscall.load (s : Syscall) (c : Cpu) : Cpu :=
  let (io0, io1, io2, io3, io4, io5) := s.args
  ((((((c.set .rax (BitVec.ofNat 64 s.ordinal)).set .rdi io0).set .rsi io1).set .rdx io2).set .r10
    io3).set .r8 io4).set .r9 io5

/-- The outputs that the block declares. -/
def callOutputs : List Reg := [.rax, .rdi, .rsi, .rdx, .r10, .r8, .r9]

/-- What `Syscall::call` makes of the outputs. -/
def SyscallResult.decode (c : Cpu) : SyscallResult :=
  if c.reg .rax = 0 then
    .success (c.reg .rdi) (c.reg .rsi) (c.reg .rdx) (c.reg .r10) (c.reg .r8) (c.reg .r9)
  else .invalid

/-- The registers of the kernel that `syscall` reads. -/
structure SyscallMsrs where
  lstar : BitVec 64
  mask : BitVec 64
  kernelCs : BitVec 16
  kernelSs : BitVec 16

/-- `Syscall::call` up to `syscall_handle_2`. -/
def Syscall.enter (s : Syscall) (o : Open) (msrs : SyscallMsrs) (c : Cpu) : Cpu :=
  run o syscallHandle1 ((s.load c).syscall msrs.lstar msrs.mask msrs.kernelCs msrs.kernelSs)

/-- The structure that `syscall_handle_2` gets. -/
def Syscall.saved (s : Syscall) (o : Open) (msrs : SyscallMsrs) (c : Cpu) : TaskProcState :=
  TaskProcState.read (s.enter o msrs c).mem ((s.enter o msrs c).reg .rdi)

/-- The word in which the stack pointer of the user is kept is not on the stack of the kernel. -/
def ScratchApart (c : Cpu) : Prop :=
  ApartStack (word c.mem (c.kernelGsBase + 8)) 15 c.kernelGsBase

section Request

variable {o : Open} {msrs : SyscallMsrs} {c : Cpu}

/-- Loading the inputs writes declared registers only. -/
theorem Syscall.load_reg (s : Syscall) {r : Reg} (hr : r ∉ callOutputs) :
    (s.load c).reg r = c.reg r := by
  simp only [callOutputs, List.mem_cons, List.not_mem_nil, or_false, not_or] at hr
  obtain ⟨hrax, hrdi, hrsi, hrdx, hr10, hr8, hr9⟩ := hr
  rw [Syscall.load, Cpu.set_reg_of_ne _ _ hr9, Cpu.set_reg_of_ne _ _ hr8,
    Cpu.set_reg_of_ne _ _ hr10, Cpu.set_reg_of_ne _ _ hrdx, Cpu.set_reg_of_ne _ _ hrsi,
    Cpu.set_reg_of_ne _ _ hrdi, Cpu.set_reg_of_ne _ _ hrax]

/-- What arrives in `syscall_handle_2`. -/
theorem Syscall.saved_eq (s : Syscall) (h : ScratchApart c) : s.saved o msrs c =
    { procState (s.load c) with
      rip := c.rip + 2, rflags := c.rflags, codeSeg := 0x23, dataSeg := 0x1b, rcx := c.rip + 2,
      r11 := c.rflags } := by
  rw [Syscall.saved, Syscall.enter, syscallHandle1_saves]
  · rfl
  · exact h

theorem Syscall.tryFrom_saved (s : Syscall) (h : ScratchApart c) :
    Syscall.tryFrom (s.saved o msrs c) = some s := by
  rw [s.saved_eq h]
  cases s <;> rfl

/-- **The kernel decodes what was asked**, and refuses what is no system call. The registers go
through the stub of `syscall_handle_1` on the way, which is why the scratch word must not be on the
kernel stack. -/
theorem request_decodes (h : ScratchApart c) :
    (∀ (s : Syscall) (o : Open) (msrs : SyscallMsrs), Syscall.tryFrom (s.saved o msrs c) = some s) ∧
      ∀ state : TaskProcState, (∀ s : Syscall, state.rax.toNat ≠ s.ordinal) →
        Syscall.tryFrom state = none := by
  refine ⟨fun s _ _ => s.tryFrom_saved h, fun state hrax => ?_⟩
  unfold Syscall.tryFrom
  split
  · next h0 => exact absurd h0 (hrax (.exit 0))
  · next h1 => exact absurd h1 (hrax .getPid)
  · next h2 => exact absurd h2 (hrax (.debugDraw 0 0 0 0 0))
  · next h3 => exact absurd h3 (hrax (.spawn 0 0))
  · rfl

end Request

/-- The registers of a kernel with its code at `0x200000`. -/
def sampleMsrs : SyscallMsrs := ⟨0x200000, 0, 0x08, 0x10⟩

/-- The stack of the kernel on the core of `userCpu` ends at the top of memory. -/
theorem userCpu_scratchApart : ScratchApart userCpu := by
  have htop : word userCpu.mem (userCpu.kernelGsBase + 8) = 0 := by decide
  rw [ScratchApart, htop]
  unfold ApartStack
  decide

theorem request_decodes_userCpu : ScratchApart userCpu ∧
    Syscall.tryFrom ((Syscall.spawn 1 2).saved plainOpen sampleMsrs userCpu) = some (.spawn 1 2) ∧
    Syscall.tryFrom { (default : TaskProcState) with rax := 4 } = none := by
  refine ⟨userCpu_scratchApart, (request_decodes userCpu_scratchApart).1 _ _ _,
    (request_decodes userCpu_scratchApart).2 _ fun s => ?_⟩
  cases s <;> simp [Syscall.ordinal]

/-! ## The result -/

section Result

variable {o : Open} {k : Cpu} {p : BitVec 64} {state : TaskProcState}

/-- The registers after `apply`. -/
theorem Applies.reg_eq (h : Applies k p state) : (run o applyAsm k).reg = state.regs := by
  rw [← regs_procState, apply_restores h]
  rfl

/-- **Every result arrives but `Failed`**, which is written back as the status 1, and every status
other than 0 is read as `Invalid`. -/
theorem result_survives_iff (result : SyscallResult) (h : Applies k p (result.writeBack state)) :
    SyscallResult.decode (run o applyAsm k) = result ↔ result ≠ .failed := by
  rw [SyscallResult.decode, h.reg_eq]
  cases result with
  | success o0 o1 o2 o3 o4 o5 => exact ⟨fun _ => by simp, fun _ => rfl⟩
  | invalid => exact ⟨fun _ => by simp, fun _ => rfl⟩
  | failed =>
    constructor
    · intro hdecode
      exact absurd hdecode (by simp [SyscallResult.writeBack, TaskProcState.regs])
    · intro hne
      exact absurd rfl hne

/-- `Spawn` of a file that does not exist fails, and the user sees an invalid system call. -/
theorem failed_arrives_as_invalid :
    ((Syscall.spawn 1 0).handle noFiles 0 screen runningSystem).run PhysicalFrameAllocator.pool
        freshPmm = .ok ((.failed, screen, runningSystem), freshPmm) ∧
      SyscallResult.decode
          (run plainOpen applyAsm (applyingCpu (SyscallResult.failed.writeBack default))) =
        .invalid := by
  refine ⟨rfl, ?_⟩
  rw [SyscallResult.decode, (applyingCpu_applies _).reg_eq]
  rfl

end Result

theorem result_survives_getPid :
    Applies (applyingCpu ((SyscallResult.success 1 0 0 0 0 0).writeBack default)) (0x700000 - 160)
        ((SyscallResult.success 1 0 0 0 0 0).writeBack default) ∧
      SyscallResult.decode (run plainOpen applyAsm
        (applyingCpu ((SyscallResult.success 1 0 0 0 0 0).writeBack default))) =
        .success 1 0 0 0 0 0 :=
  ⟨applyingCpu_applies _, (result_survives_iff _ (applyingCpu_applies _)).mpr (by decide)⟩

/-! ## The whole call -/

section Whole

variable {M F F' : Set PhysFrame} {env : Env} {core : ℕ} {fb fb' : Framebuffer} {sys sys' : System}

/-- A system call other than `Exit` keeps the tasks that exist, and what runs on the cores. -/
theorem handle_keeps {call : Syscall} {result : SyscallResult} (hcall : ∀ code, call ≠ .exit code)
    (h : Returns M (call.handle env core fb sys) F (result, fb', sys') F') :
    sys'.procs = sys.procs ∧ ∀ r < sys.nextRef, sys'.task r = sys.task r := by
  cases call with
  | exit code => exact absurd rfl (hcall code)
  | getPid =>
    simp only [Syscall.handle, returns_bind, returns_lift, returns_pure, Prod.mk.injEq] at h
    obtain ⟨-, -, -, -, -, -, ⟨-, -, rfl⟩, -⟩ := h
    exact ⟨rfl, fun _ _ => rfl⟩
  | debugDraw x y r g b =>
    simp only [Syscall.handle, returns_bind, returns_pure, Prod.mk.injEq] at h
    obtain ⟨-, -, -, ⟨-, -, rfl⟩, -⟩ := h
    exact ⟨rfl, fun _ _ => rfl⟩
  | spawn path len =>
    simp only [Syscall.handle, returns_bind, returns_lift] at h
    obtain ⟨path, _, ⟨-, rfl⟩, ⟨res, sys₁⟩, F₁, hspawn, h⟩ := h
    obtain ⟨res', hexec⟩ := spawn_cases hspawn
    have hkeeps : sys₁.procs = sys.procs ∧ ∀ r < sys.nextRef, sys₁.task r = sys.task r := by
      rcases execInitrd_cases hexec with ⟨-, rfl, -⟩ | ⟨elf, -, hexec⟩
      · exact ⟨rfl, fun _ _ => rfl⟩
      · exact ⟨procs_exec hexec, fun r hr => task_exec hr hexec⟩
    -- both results are returned with the system that `spawn` leaves
    cases res <;>
    · obtain ⟨hpair, -⟩ := returns_pure.mp h
      cases hpair
      exact hkeeps

/-- After a system call other than `Exit` the core goes back to the task that made it, with the
registers that were saved but for the result. -/
theorem syscallHandle2_resumes {state : TaskProcState} {call : Syscall} {writes : List LapicWrite}
    {target : Target} (hcons : Consistent sys) (hstate : Syscall.tryFrom state = some call)
    (hcall : ∀ code, call ≠ .exit code)
    (h : Returns M (syscallHandle2 env core state fb sys) F ((writes, target), fb', sys') F') :
    ∃ r, ∃ result : SyscallResult, sys.current core = some r ∧
      target = .user r (result.writeBack state) := by
  simp only [syscallHandle2, returns_bind] at h
  obtain ⟨⟨fb₂, sys₂, next⟩, F₂, hserve, h⟩ := h
  obtain ⟨pinfo, r, hpinfo, hr, result, sys₁, pinfo₁, hdispatch, hpinfo₁, rfl, rfl⟩ :=
    syscallServe_cases hserve
  have hcurrent : sys.current core = some r := by simp [System.current, hpinfo, hr]
  have hfresh : r < sys.nextRef := hcons.fresh r (hcons.current core r hcurrent).1
  simp only [syscallDispatch, hstate] at hdispatch
  obtain ⟨hprocs, htask⟩ := handle_keeps hcall hdispatch
  obtain rfl : pinfo = pinfo₁ := by
    rw [hprocs] at hpinfo₁
    exact Option.some.inj (hpinfo.symm.trans hpinfo₁)
  -- the registers that were stored before the handler ran are still there
  have hsaved : (sys₁.task r).procstate = state := by
    rw [htask r hfresh, System.setTask_task_self]
  simp only [hr, returns_bind, returns_pure, Prod.mk.injEq, Prod.exists] at h
  obtain ⟨writes', target', sys₃, F₃, hcont, ⟨⟨-, rfl⟩, -, -⟩, -⟩ := h
  refine ⟨r, result, hcurrent, ?_⟩
  obtain ⟨pinfo', hpinfo', ⟨hnone, -⟩ | ⟨r', hr', htarget, happly⟩⟩ := continueCurrent_cases hcont
  · cases hpinfo₁.symm.trans hpinfo'
    rw [hr] at hnone
    cases hnone
  · cases hpinfo₁.symm.trans hpinfo'
    obtain rfl : r = r' := Option.some.inj (hr.symm.trans hr')
    rw [htarget, task_apply happly, System.setTask_task_self, hsaved]

/-- The result is written to declared registers only. -/
theorem writeBack_regs (result : SyscallResult) (state : TaskProcState) {r : Reg}
    (hr : r ∉ callOutputs) : (result.writeBack state).regs r = state.regs r := by
  cases result <;> cases r <;> first | rfl | exact absurd (by decide) hr

/-- **What a system call leaves of the registers that `call` does not declare.**  Control comes back
behind `syscall`.  All other registers are as before but `rcx` and `r11`: they hold the return
address and the flags, so that they are unchanged exactly if they held these before. -/
theorem registers_survive_iff {s : Syscall} {o : Open} {msrs : SyscallMsrs} {c : Cpu}
    {pmm pmm' : PhysicalFrameAllocator} {writes : List LapicWrite} {target : Target}
    (hs : ∀ code, s ≠ .exit code) (hscratch : ScratchApart c) (hsound : pmm.Sound)
    (hcons : Consistent sys)
    (hrun : (syscallHandle2 env core (s.saved o msrs c) fb sys).run
      PhysicalFrameAllocator.pool pmm =
      .ok (((writes, target), fb', sys'), pmm')) :
    ∃ r state, target = .user r state ∧ ∀ (u : Open) (k : Cpu) (p : BitVec 64), Applies k p state →
      (run u applyAsm k).rip = c.rip + 2 ∧
      (∀ r ∉ callOutputs, r ≠ .rcx → r ≠ .r11 → (run u applyAsm k).reg r = c.reg r) ∧
      ((∀ r ∉ callOutputs, (run u applyAsm k).reg r = c.reg r) ↔
        c.reg .rcx = c.rip + 2 ∧ c.reg .r11 = c.rflags) := by
  obtain ⟨hret, -, -⟩ := run_returns PhysicalFrameAllocator.freeSet hsound hrun
  obtain ⟨r, result, -, htarget⟩ :=
    syscallHandle2_resumes hcons (s.tryFrom_saved hscratch) hs hret
  refine ⟨r, _, htarget, fun u k p happlies => ?_⟩
  have hreg {r : Reg} (hr : r ∉ callOutputs) :
      (run u applyAsm k).reg r = (s.saved o msrs c).regs r := by
    rw [happlies.reg_eq, writeBack_regs result _ hr]
  have hrip : (run u applyAsm k).rip = c.rip + 2 := by
    have hstate := congrArg TaskProcState.rip (apply_restores (o := u) happlies)
    have hback : (result.writeBack (s.saved o msrs c)).rip = (s.saved o msrs c).rip := by
      cases result <;> rfl
    refine (hstate.trans hback).trans ?_
    rw [s.saved_eq hscratch]
  -- `syscall` itself has put the return address and the flags into these two
  have hrcx : (run u applyAsm k).reg .rcx = c.rip + 2 := by
    rw [hreg (by decide), s.saved_eq hscratch]
    rfl
  have hr11 : (run u applyAsm k).reg .r11 = c.rflags := by
    rw [hreg (by decide), s.saved_eq hscratch]
    rfl
  -- all other registers are saved as they were before the instruction
  have hrest : ∀ r ∉ callOutputs, r ≠ .rcx → r ≠ .r11 → (run u applyAsm k).reg r = c.reg r := by
    intro r hr hne hne'
    rw [hreg hr, s.saved_eq hscratch, ← s.load_reg hr, ← regs_procState (s.load c)]
    cases r <;> first | rfl | exact absurd rfl hne | exact absurd rfl hne'
  refine ⟨hrip, hrest, ?_, ?_⟩
  · intro hall
    exact ⟨(hall .rcx (by decide)).symm.trans hrcx, (hall .r11 (by decide)).symm.trans hr11⟩
  · rintro ⟨hcx, h11⟩ r hr
    by_cases hr1 : r = .rcx
    · rw [hr1, hrcx, hcx]
    · by_cases hr2 : r = .r11
      · rw [hr2, hr11, h11]
      · exact hrest r hr hr1 hr2

end Whole

theorem oneTask_current {c : ℕ} {r : TaskRef} (h : oneTask.current c = some r) : c = 0 ∧ r = 0 := by
  by_cases hc : c = 0
  · subst hc
    exact ⟨rfl, (Option.some.inj h).symm⟩
  · simp [System.current, oneTask, hc] at h

/-- The one task of `oneTask` is running on core 0. -/
theorem oneTask_consistent : Consistent oneTask where
  nodup := by decide
  fresh := by decide
  ids_le := by decide
  ids := by decide
  priority := by decide
  current c r h := by
    obtain ⟨-, rfl⟩ := oneTask_current h
    exact ⟨by decide, 0, rfl⟩
  unique c c' r h h' := (oneTask_current h).1.trans (oneTask_current h').1.symm
  running r hr since _ := by
    obtain rfl := List.mem_singleton.mp hr
    exact ⟨0, rfl⟩
  strong c r h := by
    obtain ⟨-, rfl⟩ := oneTask_current h
    rfl
  strong_idle r hr h := by
    obtain rfl := List.mem_singleton.mp hr
    exact absurd rfl (h 0)

/-- `GetPid` of that task. -/
theorem getPid_run : ∃ writes sys',
    (syscallHandle2 noFiles 0 (Syscall.getPid.saved plainOpen sampleMsrs userCpu) screen
      oneTask).run
        PhysicalFrameAllocator.pool freshPmm =
      .ok (((writes, .user 0 ((SyscallResult.success 1 0 0 0 0 0).writeBack
        (Syscall.getPid.saved plainOpen sampleMsrs userCpu))), screen, sys'), freshPmm) := by
  rw [Syscall.getPid.saved_eq userCpu_scratchApart]
  exact ⟨_, _, rfl⟩

theorem registers_survive_getPid : ScratchApart userCpu ∧ freshPmm.Sound ∧ Consistent oneTask ∧
    ∃ writes target sys',
      (syscallHandle2 noFiles 0 (Syscall.getPid.saved plainOpen sampleMsrs userCpu) screen
          oneTask).run PhysicalFrameAllocator.pool freshPmm =
        .ok (((writes, target), screen, sys'), freshPmm) ∧
      ∃ r state, target = .user r state ∧
        (run plainOpen applyAsm (applyingCpu state)).rip = userCpu.rip + 2 := by
  refine ⟨userCpu_scratchApart, freshPmm_sound, oneTask_consistent, ?_⟩
  obtain ⟨writes, sys', hrun⟩ := getPid_run
  obtain ⟨r, state, htarget, hall⟩ := registers_survive_iff (fun code => by simp)
    userCpu_scratchApart freshPmm_sound oneTask_consistent hrun
  exact ⟨writes, _, sys', hrun, r, state, htarget, (hall _ _ _ (applyingCpu_applies _)).1⟩

/-- `GetPid` with 7 in `rcx` and in `r11`: both are lost. -/
theorem getPid_loses_rcx_r11 : ∃ writes state sys',
    (syscallHandle2 noFiles 0 (Syscall.getPid.saved plainOpen sampleMsrs userCpu) screen
      oneTask).run
        PhysicalFrameAllocator.pool freshPmm =
      .ok (((writes, .user 0 state), screen, sys'), freshPmm) ∧
    userCpu.reg .rcx = 7 ∧ (run plainOpen applyAsm (applyingCpu state)).reg .rcx = 0x400002 ∧
    userCpu.reg .r11 = 7 ∧ (run plainOpen applyAsm (applyingCpu state)).reg .r11 = 0x202 := by
  obtain ⟨writes, sys', hrun⟩ := getPid_run
  refine ⟨writes, _, sys', hrun, rfl, ?_, rfl, ?_⟩
  all_goals
    rw [(applyingCpu_applies _).reg_eq, Syscall.getPid.saved_eq userCpu_scratchApart]
    rfl

end HeliumOS.Proc
