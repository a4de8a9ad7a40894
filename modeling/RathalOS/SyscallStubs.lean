import RathalOS.InterruptStubs
import RathalOS.Syscalls

/-!
The two ends of a system call in assembly: `syscall` of user/syscall_asm.s, which takes its
parameters into registers, and `_syscall_handler` of kernel/syscalls/syscall_asm.s, which
pushes them as the arguments of the handler in C. The program gets back all its registers
but eax, which has the result.
-/
namespace RathalOS.SyscallStubs

open ByteMemory MemoryStacks InterruptStubs Syscalls

section Kernel

variable (upper : Word → BitVec 16)

/-- `_syscall_handler` up to the load of the segments. -/
def saveCaller : List (Instr CpuRegisters) :=
  [.push fun _ r => r.ebx, .push fun _ r => r.ecx, .push fun _ r => r.edx,
    .push fun _ r => r.esi, .push fun _ r => r.edi, .push fun _ r => r.ebp,
    .push fun a r => slot upper a r.ds, .push fun a r => slot upper a r.es,
    .push fun a r => slot upper a r.fs, .push fun a r => slot upper a r.gs,
    .push fun _ r => r.eax] ++ loadKernelSegments

/-- The instruction str stores the task register in edi, the last argument. -/
def pushArguments : List (Instr CpuRegisters) :=
  [.mov fun _ r => { r with edi := r.tr.setWidth 32 }, .push fun _ r => r.edi,
    .push fun _ r => r.esi, .push fun _ r => r.edx, .push fun _ r => r.ecx,
    .push fun _ r => r.ebx, .push fun _ r => r.eax]

/-- `_syscall_handler` up to the call. -/
def handlerEntry : List (Instr CpuRegisters) :=
  saveCaller upper ++ (.pop fun v r => { r with eax := v }) :: pushArguments

/-- `_syscall_handler` after the call, up to iret. -/
def handlerExit : List (Instr CpuRegisters) :=
  [.pop fun v r => { r with ebx := v }, .pop fun v r => { r with ebx := v },
    .pop fun v r => { r with ebx := v }, .pop fun v r => { r with ebx := v },
    .pop fun v r => { r with ebx := v }, .pop fun v r => { r with ebx := v },
    .pop fun v r => { r with gs := lowHalf v }, .pop fun v r => { r with fs := lowHalf v },
    .pop fun v r => { r with es := lowHalf v }, .pop fun v r => { r with ds := lowHalf v },
    .pop fun v r => { r with ebp := v }, .pop fun v r => { r with edi := v },
    .pop fun v r => { r with esi := v }, .pop fun v r => { r with edx := v },
    .pop fun v r => { r with ecx := v }, .pop fun v r => { r with ebx := v }]

/-- The state in which syscall_handler is called. -/
def atSyscallHandler (tss : TssStack) (gate : Gate) (m : Cpu) : Cpu :=
  (deliver upper tss gate none m).run (handlerEntry upper)

/-- A system call of the kernel from the interrupt to the end of iret. -/
def serviceSyscall (tss : TssStack) (gate : Gate) (syscallHandler : Cpu → Cpu) (m : Cpu) :
    Option Cpu :=
  iret ((syscallHandler (atSyscallHandler upper tss gate m)).run handlerExit)

/-- The arguments syscall_handler is called with. -/
def argument (e : Cpu) (i : ℕ) : Word := loadWord e.mem (e.sp + BitVec.ofNat 32 (4 * i))

end Kernel

section User

/-- Save all general registers but eax. -/
def saveUser : List (Instr CpuRegisters) :=
  [.push fun _ r => r.ebp, .mov fun sp r => { r with ebp := sp }, .push fun _ r => r.ebx,
    .push fun _ r => r.ecx, .push fun _ r => r.edx, .push fun _ r => r.esi,
    .push fun _ r => r.edi]

/-- The parameters are above the saved ebp and the return address. -/
def loadParameters : List (Instr CpuRegisters) :=
  [.load (fun r => r.ebp + 8) fun v r => { r with eax := v },
    .load (fun r => r.ebp + 12) fun v r => { r with ebx := v },
    .load (fun r => r.ebp + 16) fun v r => { r with ecx := v },
    .load (fun r => r.ebp + 20) fun v r => { r with edx := v },
    .load (fun r => r.ebp + 24) fun v r => { r with esi := v }]

/-- `syscall` up to the interrupt. -/
def userEntry : List (Instr CpuRegisters) := saveUser ++ loadParameters

def restoreUser : List (Instr CpuRegisters) :=
  [.pop fun v r => { r with edi := v }, .pop fun v r => { r with esi := v },
    .pop fun v r => { r with edx := v }, .pop fun v r => { r with ecx := v },
    .pop fun v r => { r with ebx := v }]

/-- `syscall` after the interrupt; ret pops the address it goes to. -/
def userExit : List (Instr CpuRegisters) :=
  restoreUser ++ [.setSp fun r => r.ebp, .pop fun v r => { r with ebp := v },
    .pop fun v r => { r with eip := v }]

/-- The memory behind a segment with this base. -/
def rebase (base : Word) (m : Cpu) : Cpu := { m with mem := fun a => m.mem (base + a) }

/-- A call of `syscall` from a program whose segments have this base. -/
def callSyscall (upper : Word → BitVec 16) (tss : TssStack) (gate : Gate)
    (syscallHandler : Cpu → Cpu) (base : Word) (u : Cpu) : Option Cpu :=
  (serviceSyscall upper tss gate syscallHandler (rebase (-base) (u.run userEntry))).map
    fun back => (rebase base back).run userExit

end User

section Service

variable {upper : Word → BitVec 16} {tss : TssStack} {gate : Gate}

/-- The registers `_syscall_handler` pushes, and what the processor pushed before. -/
def savedList (regs : RegsT) : List Word :=
  [regs.gs, regs.fs, regs.es, regs.ds, regs.ebp, regs.edi, regs.esi, regs.edx, regs.ecx, regs.ebx,
    regs.eip, regs.cs, regs.eflags]

/-- What the handler in C is called with. -/
def arguments (r : CpuRegisters) : List Word :=
  [r.eax, r.ebx, r.ecx, r.edx, r.esi, r.tr.setWidth 32]

theorem handler_run (upper : Word → BitVec 16) (gate : Gate) {a : ListMachine CpuRegisters}
    {esp ss : Word} (hstack : a.stack = [esp, ss]) :
    ∃ (regs : RegsT) (a' : ListMachine CpuRegisters),
      a.run (pushContext upper none ++ enterGate gate :: handlerEntry upper) = some a' ∧
      a'.stack = arguments a.file ++ (savedList regs ++ [regs.esp, regs.ss]) ∧
      regs.Describes 0 0 a.file ∧ regs.esp = esp ∧ regs.ss = ss ∧
      a'.sp + 76 = a.sp ∧ a'.file.cs = gate.selector ∧ a'.file.ss = a.file.ss ∧
      a'.file.tr = a.file.tr := by
  obtain ⟨file, sp, stack⟩ := a
  subst hstack
  let low := sp - 4 - 4 - 4 - 4 - 4 - 4 - 4 - 4 - 4
  refine ⟨⟨slot upper (low - 4 - 4 - 4) file.gs, slot upper (low - 4 - 4) file.fs,
    slot upper (low - 4) file.es, slot upper low file.ds, file.ebp, file.edi, file.esi, file.edx,
    file.ecx, file.ebx, file.eax, 0, 0, file.eip, slot upper (sp - 4) file.cs, file.eflags, esp,
    ss⟩, _, rfl, rfl, ⟨lowHalf_slot _ _ _, lowHalf_slot _ _ _, lowHalf_slot _ _ _,
    lowHalf_slot _ _ _, rfl, rfl, rfl, rfl, rfl, rfl, rfl, rfl, rfl, rfl, lowHalf_slot _ _ _, rfl⟩,
    rfl, rfl, ?_, rfl, rfl, rfl⟩
  change low - 4 - 4 - 4 - 4 - 4 + 4 - 4 - 4 - 4 - 4 - 4 - 4 + 76 = sp
  simp only [low]
  bv_omega

/-- The words above the arguments that the handler in C keeps. -/
def savedCount (m : Cpu) : ℕ := if privilege m.file.cs = 0 then 13 else 15

structure EnteredSyscall (tss : TssStack) (gate : Gate) (m e : Cpu) (regs : RegsT) : Prop where
  shows : regs.Shows 0 0 m
  stack : Holds e.mem e.sp (arguments m.file ++ (savedList regs ++ [regs.esp, regs.ss]))
  cs : e.file.cs = gate.selector
  tr : e.file.tr = m.file.tr
  kernel : privilege m.file.cs = 0 → e.file.ss = m.file.ss ∧ e.sp + 76 = m.sp
  program : privilege m.file.cs ≠ 0 → e.sp + 84 = tss.esp0

theorem atSyscallHandler_eq (upper : Word → BitVec 16) (tss : TssStack) (m : Cpu) :
    atSyscallHandler upper tss gate m = (changeStack upper tss m).run
      (pushContext upper none ++ enterGate gate :: handlerEntry upper) := by
  unfold atSyscallHandler deliver
  rw [← Machine.run_append, List.append_assoc, List.singleton_append]

theorem atSyscallHandler_entered (upper : Word → BitVec 16) (tss : TssStack) (gate : Gate)
    (m : Cpu) : ∃ regs, EnteredSyscall tss gate m (atSyscallHandler upper tss gate m) regs := by
  obtain ⟨a, esp, ss, hrep, hstack, hfile, hkernel, hprogram⟩ := changeStack_spec upper tss m
  obtain ⟨regs, a', hrun, hlist, hdescribes, hesp, hss, hsp, hcs, hss', htr⟩ :=
    handler_run upper gate hstack
  have hpushes : pushes (pushContext upper none ++ enterGate gate :: handlerEntry upper) = 20 := rfl
  have hentered := hrep.run hrun (by
    rw [hstack, hpushes, List.length_cons, List.length_singleton]
    omega)
  rw [← atSyscallHandler_eq] at hentered
  obtain ⟨hfile', hsp', hholds⟩ := hentered
  have harguments : arguments a.file = arguments m.file := by rw [hfile]; rfl
  refine ⟨regs, hdescribes.shows hfile ?_ ?_, ?_, ?_, ?_, ?_, ?_⟩
  · intro hprivilege
    rw [hesp, (hprogram hprivilege).2.1]
  · intro hprivilege
    rw [hss, (hprogram hprivilege).2.2]
  · rw [hlist, harguments] at hholds
    exact hholds
  · rw [hfile', hcs]
  · rw [hfile', htr, hfile]
  · intro hprivilege
    rw [hfile', hss', (hkernel hprivilege).1, hsp', hsp, (hkernel hprivilege).2]
    exact ⟨rfl, rfl⟩
  · intro hprivilege
    rw [hsp', ← (hprogram hprivilege).1, ← hsp, BitVec.add_assoc]
    rfl

theorem handlerExit_list (regs : RegsT) (r : CpuRegisters) (sp v0 v1 v2 v3 v4 v5 : Word)
    (top : List Word) :
    (⟨r, sp, [v0, v1, v2, v3, v4, v5] ++ (savedList regs ++ top)⟩ :
      ListMachine CpuRegisters).run (handlerExit ++ popContext) =
      some ⟨{ regs.restore r with eax := r.eax }, sp + 76, top⟩ := by
  have hsp : sp + 4 + 4 + 4 + 4 + 4 + 4 + 4 + 4 + 4 + 4 + 4 + 4 + 4 + 4 + 4 + 4 + 4 + 4 + 4 =
      sp + 76 := by
    bv_omega
  exact congrArg (fun sp => some (⟨_, sp, top⟩ : ListMachine CpuRegisters)) hsp

/-- The result stays in eax. -/
theorem handlerExit_run (regs : RegsT) {after : Cpu} {top : List Word}
    (h : Holds after.mem (after.sp + 24) (savedList regs ++ top)) (hroom : top.length ≤ 2) :
    (after.run handlerExit).file.cs = after.file.cs ∧
      (after.run handlerExit).file.eflags = after.file.eflags ∧
      Represents ((after.run handlerExit).run popContext)
        ⟨{ regs.restore after.file with eax := after.file.eax }, after.sp + 76, top⟩ := by
  have hwords := holds_wordsAt after.mem after.sp 6
  obtain ⟨v0, v1, v2, v3, v4, v5, hlist⟩ : ∃ v0 v1 v2 v3 v4 v5,
      wordsAt after.mem after.sp 6 = [v0, v1, v2, v3, v4, v5] := ⟨_, _, _, _, _, _, rfl⟩
  rw [hlist] at hwords
  have hrep : Represents after ⟨after.file, after.sp,
      [v0, v1, v2, v3, v4, v5] ++ (savedList regs ++ top)⟩ :=
    ⟨rfl, rfl, holds_append.mpr ⟨hwords, h⟩⟩
  refine ⟨by simp [Machine.run, handlerExit, Machine.step],
    by simp [Machine.run, handlerExit, Machine.step], ?_⟩
  rw [← Machine.run_append]
  refine hrep.run (handlerExit_list regs after.file after.sp v0 v1 v2 v3 v4 v5 top) ?_
  have hpushes : pushes (handlerExit ++ popContext) = 0 := rfl
  have hsaved : (savedList regs).length = 13 := rfl
  rw [hpushes, List.length_append, List.length_append]
  change 4 * (6 + _ + 0) ≤ _
  omega

/-- The caller of a system call goes on as it was, with the result in eax. -/
theorem serviceSyscall_eq (upper : Word → BitVec 16) (tss : TssStack) (gate : Gate)
    (hgate : privilege gate.selector = 0) (syscallHandler : Cpu → Cpu) (m : Cpu)
    (hreturns : Returns 6 (savedCount m) (atSyscallHandler upper tss gate m)
      (syscallHandler (atSyscallHandler upper tss gate m))) :
    serviceSyscall upper tss gate syscallHandler m =
      some ⟨{ m.file with eax := (syscallHandler (atSyscallHandler upper tss gate m)).file.eax },
        m.sp, (syscallHandler (atSyscallHandler upper tss gate m)).mem⟩ := by
  obtain ⟨regs, hentered⟩ := atSyscallHandler_entered upper tss gate m
  unfold serviceSyscall
  generalize atSyscallHandler upper tss gate m = e at hentered hreturns ⊢
  generalize syscallHandler e = after at hreturns ⊢
  obtain ⟨hshows, hholds, hcs, htr, hkernel, hprogram⟩ := hentered
  have hsaved : Holds e.mem (e.sp + 24) (savedList regs ++ [regs.esp, regs.ss]) :=
    (holds_append.mp hholds).2
  have hfile : regs.restore after.file = { m.file with ss := after.file.ss } :=
    hshows.restore_eq (hreturns.tr.trans htr)
  have hmem : (after.run handlerExit).mem = after.mem := Machine.run_mem rfl after
  have hlevel : privilege after.file.cs = 0 := by rw [hreturns.cs, hcs, hgate]
  by_cases hprivilege : privilege m.file.cs = 0
  · obtain ⟨hss, hsp⟩ := hkernel hprivilege
    have hcontext := hreturns.holds (holds_append.mp hsaved).1
      (by rw [savedCount, if_pos hprivilege]; exact le_rfl)
    rw [← List.append_nil (savedList regs)] at hcontext
    obtain ⟨hcs', hflags, hpopped⟩ := handlerExit_run regs hcontext (by simp)
    rw [iret_kernel (by rw [hflags, hreturns.nested]) (by rw [hcs', hlevel]) hpopped
      (by rw [hfile]; exact hprivilege), hmem, hfile, hreturns.sp, hsp, hreturns.ss, hss]
  · have hcontext := hreturns.holds hsaved (by rw [savedCount, if_neg hprivilege]; exact le_rfl)
    obtain ⟨hcs', hflags, hpopped⟩ := handlerExit_run regs hcontext le_rfl
    rw [iret_program (by rw [hflags, hreturns.nested]) (by rw [hcs', hlevel]) hpopped
      (by rw [hfile]; exact hprivilege), hmem, hfile, hshows.esp hprivilege, hshows.ss hprivilege]

/-- The call made is the one that was modelled from the registers alone. -/
def handlerCall (taskTable : Fin MAX_TASK_COUNT → Task) (e : Cpu) :
    Except Fault (Option Invocation) :=
  syscallHandler taskTable e.mem (argument e 0) (argument e 1) (argument e 2) (argument e 3)
    (argument e 4) (argument e 5)

/-- The words on the stack are the registers of the caller. -/
theorem argument_atSyscallHandler (upper : Word → BitVec 16) (tss : TssStack) (gate : Gate)
    (m : Cpu) : (List.range 6).map (argument (atSyscallHandler upper tss gate m)) =
      arguments m.file := by
  obtain ⟨regs, hentered⟩ := atSyscallHandler_entered upper tss gate m
  have hget : ∀ i (v : Word), (arguments m.file)[i]? = some v →
      argument (atSyscallHandler upper tss gate m) i = v :=
    fun i v hi => (holds_append.mp hentered.stack).1.get hi
  change [_, _, _, _, _, _] = arguments m.file
  rw [hget 0 m.file.eax rfl, hget 1 m.file.ebx rfl, hget 2 m.file.ecx rfl, hget 3 m.file.edx rfl,
    hget 4 m.file.esi rfl, hget 5 (m.file.tr.setWidth 32) rfl, arguments]

theorem handlerCall_eq (taskTable : Fin MAX_TASK_COUNT → Task) (upper : Word → BitVec 16)
    (tss : TssStack) (gate : Gate) (m : Cpu) :
    handlerCall taskTable (atSyscallHandler upper tss gate m) =
      syscallEntry taskTable (atSyscallHandler upper tss gate m).mem
        ⟨m.file.eax, m.file.ebx, m.file.ecx, m.file.edx, m.file.esi⟩ (m.file.tr.setWidth 32) := by
  have hwords : [_, _, _, _, _, _] = arguments m.file :=
    argument_atSyscallHandler upper tss gate m
  simp only [arguments, List.cons.injEq] at hwords
  obtain ⟨hnb, h1, h2, h3, h4, htr, -⟩ := hwords
  unfold handlerCall syscallEntry
  rw [hnb, h1, h2, h3, h4, htr]

/-- For a program nothing is written but 21 words at the top of the stack in its TSS. -/
theorem atSyscallHandler_outside (upper : Word → BitVec 16) (tss : TssStack) (gate : Gate) (m : Cpu)
    (hprivilege : privilege m.file.cs ≠ 0) {b : Word} (hb : 84 ≤ (b - (tss.esp0 - 84)).toNat) :
    (atSyscallHandler upper tss gate m).mem b = m.mem b := by
  obtain ⟨a, esp, ss, hrep, -, -, -, hprogram⟩ := changeStack_spec upper tss m
  have hbase : (changeStack upper tss m).sp + 8 = tss.esp0 := by
    rw [hrep.sp]
    exact (hprogram hprivilege).1
  have hbelow : Descends (pushContext upper none ++ enterGate gate :: saveCaller upper) := by
    simp [pushContext, enterGate, saveCaller, loadKernelSegments, Descends, Instr.isPush]
  have harguments : Descends pushArguments := by
    simp [pushArguments, Descends, Instr.isPush]
  have hsplit : pushContext upper none ++ enterGate gate :: handlerEntry upper =
      (pushContext upper none ++ enterGate gate :: saveCaller upper) ++
        ([.pop fun v r => { r with eax := v }] ++ pushArguments) := by
    simp [handlerEntry]
  rw [atSyscallHandler_eq, hsplit, Machine.run_append, Machine.run_append]
  obtain ⟨hsp, hmem⟩ := hbelow.run (changeStack upper tss m)
  generalize (changeStack upper tss m).run (pushContext upper none ++
    enterGate gate :: saveCaller upper) = low at hsp hmem ⊢
  change low.sp = (changeStack upper tss m).sp - 56 at hsp
  obtain ⟨hsp', hmem'⟩ := harguments.run (low.run [.pop fun v r => { r with eax := v }])
  change ((low.run [.pop fun v r => { r with eax := v }]).run pushArguments).sp =
    low.sp + 4 - 24 at hsp'
  change ∀ b : Word, 24 ≤ _ → _ at hmem'
  rw [hmem' b (by rw [hsp']; bv_omega)]
  change low.mem b = _
  rw [hmem b (by change 56 ≤ _; bv_omega)]
  exact changeStack_outside upper tss m fun _ => by bv_omega

end Service

section Calls

variable {upper : Word → BitVec 16} {tss : TssStack} {gate : Gate}

/-- The registers of the program when it raises the interrupt. -/
def loaded (r : CpuRegisters) (sp nb arg1 arg2 arg3 arg4 : Word) : CpuRegisters :=
  { r with
    ebp := sp - 4
    eax := nb
    ebx := arg1
    ecx := arg2
    edx := arg3
    esi := arg4 }

/-- The frame of `syscall`: the registers it saved and the address it returns to. -/
def userFrame (r : CpuRegisters) (ret : Word) : List Word :=
  [r.edi, r.esi, r.edx, r.ecx, r.ebx, r.ebp, ret]

theorem saveUser_run (r : CpuRegisters) (sp ret : Word) (ws : List Word) :
    (⟨r, sp, ret :: ws⟩ : ListMachine CpuRegisters).run saveUser =
      some ⟨{ r with ebp := sp - 4 }, sp - 4 - 4 - 4 - 4 - 4 - 4, userFrame r ret ++ ws⟩ := rfl

theorem loadParameters_run (r : CpuRegisters) (sp nb arg1 arg2 arg3 arg4 : Word) {ws : List Word}
    (hlen : ws.length = 7) :
    (⟨{ r with ebp := sp - 4 }, sp - 24, ws ++ [nb, arg1, arg2, arg3, arg4]⟩ :
      ListMachine CpuRegisters).run loadParameters =
      some ⟨loaded r sp nb arg1 arg2 arg3 arg4, sp - 24, ws ++ [nb, arg1, arg2, arg3, arg4]⟩ := by
  have hslot : ∀ k (v : Word), [nb, arg1, arg2, arg3, arg4][k]? = some v →
      (ws ++ [nb, arg1, arg2, arg3, arg4])[7 + k]? = some v := by
    intro k v hv
    rw [List.getElem?_append_right (by omega), hlen, Nat.add_sub_cancel_left]
    exact hv
  rw [loadParameters, ListMachine.run_load (k := 7) (v := nb),
    ListMachine.run_load (k := 8) (v := arg1), ListMachine.run_load (k := 9) (v := arg2),
    ListMachine.run_load (k := 10) (v := arg3), ListMachine.run_load (k := 11) (v := arg4)]
  · rfl
  all_goals first
    | omega
    | (change sp - 4 + _ = sp - 24 + _; bv_omega)
    | exact hslot 0 nb rfl
    | exact hslot 1 arg1 rfl
    | exact hslot 2 arg2 rfl
    | exact hslot 3 arg3 rfl
    | exact hslot 4 arg4 rfl

theorem userEntry_run (r : CpuRegisters) (sp ret nb arg1 arg2 arg3 arg4 : Word) :
    (⟨r, sp, [ret, nb, arg1, arg2, arg3, arg4]⟩ : ListMachine CpuRegisters).run userEntry =
      some ⟨loaded r sp nb arg1 arg2 arg3 arg4, sp - 24,
        userFrame r ret ++ [nb, arg1, arg2, arg3, arg4]⟩ := by
  have hsp : sp - 4 - 4 - 4 - 4 - 4 - 4 = sp - 24 := by bv_omega
  rw [userEntry, ListMachine.run_append, saveUser_run, Option.bind_some, hsp]
  exact loadParameters_run r sp nb arg1 arg2 arg3 arg4 rfl

/-- The registers with those in a frame in place of their own. -/
def restoreFrame (r r' : CpuRegisters) (ret : Word) : CpuRegisters :=
  { r' with
    edi := r.edi
    esi := r.esi
    edx := r.edx
    ecx := r.ecx
    ebx := r.ebx
    ebp := r.ebp
    eip := ret }

theorem userExit_run (r r' : CpuRegisters) (sp ret : Word) (hebp : r'.ebp = sp - 4) :
    (⟨r', sp - 24, userFrame r ret⟩ : ListMachine CpuRegisters).run userExit =
      some ⟨restoreFrame r r' ret, sp + 4, []⟩ := by
  have hsp : sp - 24 + 4 + 4 + 4 + 4 + 4 = sp - 4 := by bv_omega
  have hpopped : (⟨r', sp - 24, userFrame r ret⟩ : ListMachine CpuRegisters).run
      restoreUser = some ⟨{ r' with
        edi := r.edi, esi := r.esi, edx := r.edx, ecx := r.ecx, ebx := r.ebx },
        sp - 24 + 4 + 4 + 4 + 4 + 4, [r.ebp, ret]⟩ := rfl
  have hoffset : r'.ebp = sp - 4 + BitVec.ofNat 32 (4 * 0) := by
    rw [hebp]
    bv_omega
  have hret : sp - 4 + 4 + 4 = sp + 4 := by bv_omega
  rw [userExit, ListMachine.run_append, hpopped, Option.bind_some, hsp,
    ListMachine.run_setSp hoffset (by omega) (Nat.zero_le _), hebp, ← hret]
  rfl

theorem restoreFrame_loaded (r : CpuRegisters) (sp nb arg1 arg2 arg3 arg4 v ret : Word) :
    restoreFrame r { loaded r sp nb arg1 arg2 arg3 arg4 with eax := v } ret =
      { r with eax := v, eip := ret } := rfl

theorem userExit_eq (back : Cpu) {r : CpuRegisters} {sp ret : Word}
    (hebp : back.file.ebp = sp - 4) (hsp : back.sp = sp - 24)
    (hheld : Holds back.mem (sp - 24) (userFrame r ret)) :
    back.run userExit = ⟨restoreFrame r back.file ret, sp + 4, back.mem⟩ := by
  have hrep : Represents back ⟨back.file, sp - 24, userFrame r ret⟩ :=
    ⟨rfl, hsp, by rw [hsp]; exact hheld⟩
  have hexit := hrep.run (userExit_run r back.file sp ret hebp) (show 4 * (7 + 0) ≤ 2 ^ 32 by omega)
  rw [hexit.eq, Machine.run_mem rfl]

/-- Where the frame of `syscall` is in memory while the kernel works. -/
def frameByte (base : Word) (u : Cpu) (k : ℕ) : Word := base + (u.sp - 24 + BitVec.ofNat 32 k)

/-- From the interrupt to the return from `syscall`. -/
theorem resume_eq (upper : Word → BitVec 16) (tss : TssStack) (gate : Gate)
    (hgate : privilege gate.selector = 0) (handler : Cpu → Cpu) (base : Word) {u raised : Cpu}
    (hprivilege : privilege u.file.cs ≠ 0) {ret nb arg1 arg2 arg3 arg4 : Word}
    (hfile : raised.file = loaded u.file u.sp nb arg1 arg2 arg3 arg4) (hsp : raised.sp = u.sp - 24)
    (hstack : Holds raised.mem (u.sp - 24) (userFrame u.file ret))
    (happart : ∀ k < 28, 84 ≤ (frameByte base u k - (tss.esp0 - 84)).toNat)
    {e : Cpu} (he : atSyscallHandler upper tss gate (rebase (-base) raised) = e)
    (hkeeps : Returns 6 15 e (handler e))
    (hframe : ∀ k < 28, (handler e).mem (frameByte base u k) = e.mem (frameByte base u k)) :
    (serviceSyscall upper tss gate handler (rebase (-base) raised)).map
        (fun back => (rebase base back).run userExit) =
      some ⟨{ u.file with eax := (handler e).file.eax, eip := ret }, u.sp + 4,
        fun a => (handler e).mem (base + a)⟩ := by
  have hraised : privilege (rebase (-base) raised).file.cs ≠ 0 := by
    change privilege raised.file.cs ≠ 0
    rw [hfile]
    exact hprivilege
  have hheld : Holds (fun a => (handler e).mem (base + a)) (u.sp - 24) (userFrame u.file ret) := by
    refine hstack.congr fun k hk => ?_
    change (handler e).mem (frameByte base u k) = _
    rw [hframe k hk, ← he, atSyscallHandler_outside upper tss gate _ hraised (happart k hk)]
    change raised.mem (-base + frameByte base u k) = _
    unfold frameByte
    rw [← BitVec.add_assoc, BitVec.add_comm (-base), BitVec.add_right_neg, BitVec.zero_add]
  have hserved := serviceSyscall_eq upper tss gate hgate handler (rebase (-base) raised)
    (by rw [savedCount, if_neg hraised, he]; exact hkeeps)
  rw [he] at hserved
  have hebp : raised.file.ebp = u.sp - 4 := by rw [hfile]; rfl
  have hexit := userExit_eq ⟨{ raised.file with eax := (handler e).file.eax }, raised.sp,
    fun a => (handler e).mem (base + a)⟩ hebp hsp hheld
  rw [hserved, Option.map_some]
  refine congrArg some (hexit.trans ?_)
  rw [hfile, restoreFrame_loaded]

/-- A program that calls `syscall` reaches the handler in C with its five parameters and its
task register, and gets back every register it had, with the result in eax. -/
theorem callSyscall_returns (upper : Word → BitVec 16) (tss : TssStack) (gate : Gate)
    (hgate : privilege gate.selector = 0) (taskTable : Fin MAX_TASK_COUNT → Task)
    (handler : Cpu → Cpu) (base : Word) (u : Cpu) (hprivilege : privilege u.file.cs ≠ 0)
    {ret nb arg1 arg2 arg3 arg4 : Word}
    (hparameters : Holds u.mem u.sp [ret, nb, arg1, arg2, arg3, arg4])
    (happart : ∀ k < 28, 84 ≤ (frameByte base u k - (tss.esp0 - 84)).toNat)
    (hreturns : let e := atSyscallHandler upper tss gate (rebase (-base) (u.run userEntry))
      Returns 6 15 e (handler e) ∧
        ∀ k < 28, (handler e).mem (frameByte base u k) = e.mem (frameByte base u k)) :
    let e := atSyscallHandler upper tss gate (rebase (-base) (u.run userEntry))
    (List.range 6).map (argument e) = [nb, arg1, arg2, arg3, arg4, u.file.tr.setWidth 32] ∧
      handlerCall taskTable e = syscallEntry taskTable e.mem ⟨nb, arg1, arg2, arg3, arg4⟩
        (u.file.tr.setWidth 32) ∧
      callSyscall upper tss gate handler base u =
        some ⟨{ u.file with eax := (handler e).file.eax, eip := ret }, u.sp + 4,
          fun a => (handler e).mem (base + a)⟩ := by
  have hrep : Represents u ⟨u.file, u.sp, [ret, nb, arg1, arg2, arg3, arg4]⟩ :=
    ⟨rfl, rfl, hparameters⟩
  obtain ⟨hfile, hsp, hstack⟩ := hrep.run (userEntry_run u.file u.sp ret nb arg1 arg2 arg3 arg4)
    (show 4 * (6 + 6) ≤ 2 ^ 32 by omega)
  unfold callSyscall
  generalize u.run userEntry = raised at hfile hsp hstack hreturns ⊢
  obtain ⟨hkeeps, hframe⟩ := hreturns
  rw [hsp] at hstack
  refine ⟨?_, ?_, resume_eq upper tss gate hgate handler base hprivilege hfile hsp
    (holds_append.mp hstack).1 happart rfl hkeeps hframe⟩
  · rw [argument_atSyscallHandler]
    change arguments raised.file = _
    rw [hfile]
    rfl
  · rw [handlerCall_eq]
    change syscallEntry taskTable _ ⟨raised.file.eax, raised.file.ebx, raised.file.ecx,
      raised.file.edx, raised.file.esi⟩ (raised.file.tr.setWidth 32) = _
    rw [hfile]
    rfl

end Calls

section Examples

/-- A program calls get_ticks, number 13, with the address of a variable, and returns to
0x1234. -/
def exampleCaller : Cpu where
  file :=
    { gs := 15, fs := 15, es := 15, ds := 15, ebp := 0x4100, edi := 2, esi := 3, edx := 4, ecx := 5,
      ebx := 6, eax := 7, eip := 0x2000, cs := 7, eflags := 0x4202, ss := 15, tr := 0x28 }
  sp := 0x4000
  mem := fun a => if a = 0x4000 then 0x34 else if a = 0x4001 then 0x12 else
    if a = 0x4004 then 13 else if a = 0x4008 ∨ a = 0x4009 then 0x40 else 0

/-- The handler stores five ticks in the variable. -/
def exampleSyscallHandler (e : Cpu) : Cpu where
  file := { e.file with eax := 0, edx := 0x204040 }
  sp := e.sp
  mem := Function.update e.mem 0x204040 5

/-- The stack of the task in the kernel and the gate of system calls. -/
def exampleStack : TssStack := ⟨0x300000, 0x10⟩
def exampleGate : Gate := ⟨0x101000, 8, false⟩

theorem callSyscall_returns_getTicks :
    callSyscall (fun _ => 0) exampleStack exampleGate exampleSyscallHandler 0x200000
      exampleCaller =
      some ⟨{ exampleCaller.file with eax := 0, eip := 0x1234 }, 0x4004, fun a =>
        (exampleSyscallHandler (atSyscallHandler (fun _ => 0) exampleStack exampleGate
          (rebase (-0x200000) (exampleCaller.run userEntry)))).mem (0x200000 + a)⟩ := by
  have hparameters : Holds exampleCaller.mem exampleCaller.sp [0x1234, 13, 0x4040, 0, 0, 0] := by
    refine ⟨?_, ?_, ?_, ?_, ?_, ?_, trivial⟩ <;> decide
  have happart : ∀ k < 28,
      84 ≤ (frameByte 0x200000 exampleCaller k - (exampleStack.esp0 - 84)).toNat := by
    decide
  have hreturns : Returns 6 15 (atSyscallHandler (fun _ => 0) exampleStack exampleGate
        (rebase (-0x200000) (exampleCaller.run userEntry)))
      (exampleSyscallHandler (atSyscallHandler (fun _ => 0) exampleStack exampleGate
        (rebase (-0x200000) (exampleCaller.run userEntry)))) := by
    refine ⟨rfl, rfl, rfl, rfl, by decide, fun k hk => Function.update_of_ne ?_ _ _⟩
    change (0x300000 - 84 : Word) + BitVec.ofNat 32 (4 * 6 + k) ≠ 0x204040
    bv_omega
  have hframe : ∀ k < 28, frameByte 0x200000 exampleCaller k ≠ 0x204040 := by
    decide
  exact (callSyscall_returns (fun _ => 0) exampleStack exampleGate (by decide)
    (tasksAt 0x200000) exampleSyscallHandler 0x200000 exampleCaller (by decide) hparameters
    happart ⟨hreturns, fun k hk => Function.update_of_ne (hframe k hk) _ _⟩).2.2

end Examples

end RathalOS.SyscallStubs
