import RathalOS.Descriptors

/-!
System calls from the wrapper in the user library to the function of the kernel.
The handler adds the base of the calling task to all four arguments, so that a
pointer of the user becomes an address of the kernel. Some wrappers pass a
number by its address as well; the kernel function dereferences it in one case
only and otherwise receives the address for the number.
-/
namespace RathalOS.Syscalls

open ByteMemory Descriptors

/-- `syscall_t`. -/
inductive SyscallNb
  | puts | exec | keypressed | getc | fileStat | fileOpen | fileRead | fileClose | fileSeek
  | fileRemove | fileIterator | fileHasNext | fileNext | getTicks | putc | printf | srand | rand
  | sleep | exit | strlen | strcmp | readString
  deriving DecidableEq, Repr

def SyscallNb.value : SyscallNb → ℕ
  | puts => 0
  | exec => 1
  | keypressed => 2
  | getc => 3
  | fileStat => 4
  | fileOpen => 5
  | fileRead => 6
  | fileClose => 7
  | fileSeek => 8
  | fileRemove => 9
  | fileIterator => 10
  | fileHasNext => 11
  | fileNext => 12
  | getTicks => 13
  | putc => 14
  | printf => 15
  | srand => 16
  | rand => 17
  | sleep => 18
  | exit => 19
  | strlen => 20
  | strcmp => 21
  | readString => 22

/-- The memory of the machine, which wraps around. -/
abbrev Ram := Word → Byte

def load32 (m : Ram) (a : Word) : Word := read32 (fun k => m (a + BitVec.ofNat 32 k)) 0

/-- The functions of the kernel behind the system calls, with their arguments.
printf takes a format and any number of further arguments. -/
inductive KernelCall
  | displayString (str : Word)
  | exec (filename : Word)
  | keypressed
  | getc
  | fileStat (filename stat : Word)
  | fileOpen (filename : Word)
  | fileRead (fd buf count : Word)
  | fileClose (fd : Word)
  | fileSeek (fd offset : Word)
  | fileRemove (filename : Word)
  | fileIterator
  | fileHasNext (it : Word)
  | fileNext (filename it : Word)
  | getTicks
  | displayCarac (c : Byte)
  | printf (fmt : Word) (args : List Word)
  | srand (seed : Word)
  | rand
  | sleep (ms : Word)
  | exit
  | strlen (s : Word)
  | strcmp (p q : Word)
  | readString (buffer : Word)
  deriving DecidableEq, Repr

/-- A call and the address its result is stored at. -/
structure Invocation where
  call : KernelCall
  resultAt : Option Word
  deriving DecidableEq, Repr

/-- What a system call invokes, given the memory and its arguments. -/
abbrev SyscallFunction := Ram → Word → Word → Word → Word → Option Invocation

@[simp] def syscallPuts : SyscallFunction := fun _ arg1 _ _ _ => some ⟨.displayString arg1, none⟩
@[simp] def syscallExec : SyscallFunction := fun _ arg1 arg2 _ _ => some ⟨.exec arg1, some arg2⟩
@[simp] def syscallKeypressed : SyscallFunction := fun _ arg1 _ _ _ => some ⟨.keypressed, some arg1⟩
@[simp] def syscallGetc : SyscallFunction := fun _ arg1 _ _ _ => some ⟨.getc, some arg1⟩
@[simp] def syscallFileStat : SyscallFunction := fun _ arg1 arg2 arg3 _ =>
  some ⟨.fileStat arg1 arg2, some arg3⟩
@[simp] def syscallFileOpen : SyscallFunction := fun _ arg1 arg2 _ _ =>
  some ⟨.fileOpen arg1, some arg2⟩
@[simp] def syscallFileRead : SyscallFunction := fun _ arg1 arg2 arg3 arg4 =>
  some ⟨.fileRead arg1 arg2 arg3, some arg4⟩
@[simp] def syscallFileClose : SyscallFunction := fun _ arg1 _ _ _ => some ⟨.fileClose arg1, none⟩
@[simp] def syscallFileSeek : SyscallFunction := fun _ arg1 arg2 arg3 _ =>
  some ⟨.fileSeek arg1 arg2, some arg3⟩
@[simp] def syscallFileRemove : SyscallFunction := fun _ arg1 arg2 _ _ =>
  some ⟨.fileRemove arg1, some arg2⟩
@[simp] def syscallFileIterator : SyscallFunction := fun _ arg1 _ _ _ =>
  some ⟨.fileIterator, some arg1⟩
@[simp] def syscallFileHasNext : SyscallFunction := fun _ arg1 arg2 _ _ =>
  some ⟨.fileHasNext arg1, some arg2⟩
@[simp] def syscallFileNext : SyscallFunction := fun _ arg1 arg2 _ _ =>
  some ⟨.fileNext arg1 arg2, none⟩
@[simp] def syscallGetTicks : SyscallFunction := fun _ arg1 _ _ _ => some ⟨.getTicks, some arg1⟩
@[simp] def syscallPutc : SyscallFunction := fun m arg1 _ _ _ => some ⟨.displayCarac (m arg1), none⟩
@[simp] def syscallPrintf : SyscallFunction := fun m arg1 arg2 _ _ =>
  some ⟨.printf arg1 [load32 m arg2], none⟩
/-- The call of srand is commented out, and that of rand below as well. -/
@[simp] def syscallSrand : SyscallFunction := fun _ _ _ _ _ => none
@[simp] def syscallRand : SyscallFunction := fun _ _ _ _ _ => none
@[simp] def syscallSleep : SyscallFunction := fun _ arg1 _ _ _ => some ⟨.sleep arg1, none⟩
@[simp] def syscallExit : SyscallFunction := fun _ _ _ _ _ => some ⟨.exit, none⟩
@[simp] def syscallStrlen : SyscallFunction := fun _ arg1 arg2 _ _ => some ⟨.strlen arg1, some arg2⟩
@[simp] def syscallStrcmp : SyscallFunction := fun _ arg1 arg2 arg3 _ =>
  some ⟨.strcmp arg1 arg2, some arg3⟩
@[simp] def syscallReadString : SyscallFunction := fun _ arg1 _ _ _ => some ⟨.readString arg1, none⟩

def funcSyscalls : List SyscallFunction :=
  [syscallPuts, syscallExec, syscallKeypressed, syscallGetc, syscallFileStat, syscallFileOpen,
    syscallFileRead, syscallFileClose, syscallFileSeek, syscallFileRemove, syscallFileIterator,
    syscallFileHasNext, syscallFileNext, syscallGetTicks, syscallPutc, syscallPrintf,
    syscallSrand, syscallRand, syscallSleep, syscallExit, syscallStrlen, syscallStrcmp,
    syscallReadString]

/-- The entry of each number. -/
def SyscallNb.function : SyscallNb → SyscallFunction
  | puts => syscallPuts
  | exec => syscallExec
  | keypressed => syscallKeypressed
  | getc => syscallGetc
  | fileStat => syscallFileStat
  | fileOpen => syscallFileOpen
  | fileRead => syscallFileRead
  | fileClose => syscallFileClose
  | fileSeek => syscallFileSeek
  | fileRemove => syscallFileRemove
  | fileIterator => syscallFileIterator
  | fileHasNext => syscallFileHasNext
  | fileNext => syscallFileNext
  | getTicks => syscallGetTicks
  | putc => syscallPutc
  | printf => syscallPrintf
  | srand => syscallSrand
  | rand => syscallRand
  | sleep => syscallSleep
  | exit => syscallExit
  | strlen => syscallStrlen
  | strcmp => syscallStrcmp
  | readString => syscallReadString

theorem funcSyscalls_value (nb : SyscallNb) : funcSyscalls[nb.value]? = some nb.function := by
  cases nb <;> rfl

abbrev MAX_TASK_COUNT : ℕ := 10

/-- `task_t`, of which the handler uses the descriptors of the code and data segments. -/
structure Task where
  taskLdt : Fin 2 → GdtEntry

/-- The base of the data segment, by which the handler moves the arguments. -/
def Task.base (task : Task) : Word := (task.taskLdt 1).base

/-- `task_table[(caller_tss_selector >> 3) - 4]`. -/
def callerTask (taskTable : Fin MAX_TASK_COUNT → Task) (callerTssSelector : Word) :
    Except Fault Task :=
  let index := (callerTssSelector >>> 3) - 4
  if h : index.toNat < MAX_TASK_COUNT then .ok (taskTable ⟨index.toNat, h⟩) else .error .undefined

def syscallHandler (taskTable : Fin MAX_TASK_COUNT → Task) (m : Ram)
    (nb arg1 arg2 arg3 arg4 callerTssSelector : Word) : Except Fault (Option Invocation) := do
  let task ← callerTask taskTable callerTssSelector
  let base := (task.taskLdt 1).base
  match funcSyscalls[nb.toNat]? with
  | some f => .ok (f m (base + arg1) (base + arg2) (base + arg3) (base + arg4))
  | none => .error .undefined

/-- The registers at the time of the interrupt. -/
structure Registers where
  eax : Word
  ebx : Word
  ecx : Word
  edx : Word
  esi : Word

/-- `syscall` of user/syscall_asm.s, up to the interrupt. -/
def syscall (nb : SyscallNb) (arg1 arg2 arg3 arg4 : Word) : Registers where
  eax := BitVec.ofNat 32 nb.value
  ebx := arg1
  ecx := arg2
  edx := arg3
  esi := arg4

/-- `_syscall_handler`, which pushes the registers and the task register. -/
def syscallEntry (taskTable : Fin MAX_TASK_COUNT → Task) (m : Ram) (regs : Registers)
    (tr : Word) : Except Fault (Option Invocation) :=
  syscallHandler taskTable m regs.eax regs.ebx regs.ecx regs.edx regs.esi tr

/-- An argument after the format of printf. -/
inductive Vararg
  | scalar (value : Word)
  | pointer (address : Word)

/-- The word the user pushes. -/
def Vararg.raw : Vararg → Word
  | scalar value => value
  | pointer address => address

/-- The word that means the same to the kernel. -/
def Vararg.relocated (base : Word) : Vararg → Word
  | scalar value => value
  | pointer address => base + address

/-- A call of a wrapper of the user library with its arguments. -/
inductive WrapperCall
  | puts (str : Word)
  | exec (filename : Word)
  | keypressed
  | getc
  | fileStat (filename stats : Word)
  | fileOpen (filename : Word)
  | fileRead (fd buf count : Word)
  | fileClose (fd : Word)
  | fileSeek (fd offset : Word)
  | fileRemove (filename : Word)
  | fileIterator
  | fileHasNext (it : Word)
  | fileNext (filename it : Word)
  | getTicks
  | putc (c : Byte)
  | printf (fmt : Word) (args : List Vararg)
  | srand (seed : Word)
  | rand
  | sleep (ms : Word)
  | exit
  | strlen (str : Word)
  | strcmp (p q : Word)
  | readString (buffer : Word)

/-- Where a wrapper keeps its parameters and its variable ret, in the segment of the task. -/
structure Frame where
  param : ℕ → Word
  ret : Word

/-- The body of a wrapper. exec first prints a line, which is a call of printf. -/
def WrapperCall.registers (frame : Frame) : WrapperCall → Registers
  | puts str => syscall .puts str 0 0 0
  | exec filename => syscall .exec filename frame.ret 0 0
  | keypressed => syscall .keypressed frame.ret 0 0 0
  | getc => syscall .getc frame.ret 0 0 0
  | fileStat filename stats => syscall .fileStat filename stats frame.ret 0
  | fileOpen filename => syscall .fileOpen filename frame.ret 0 0
  | fileRead _ buf _ => syscall .fileRead (frame.param 0) buf (frame.param 2) frame.ret
  | fileClose _ => syscall .fileClose (frame.param 0) 0 0 0
  | fileSeek _ _ => syscall .fileSeek (frame.param 0) (frame.param 1) frame.ret 0
  | fileRemove filename => syscall .fileRemove filename frame.ret 0 0
  | fileIterator => syscall .fileIterator frame.ret 0 0 0
  | fileHasNext it => syscall .fileHasNext it frame.ret 0 0
  | fileNext filename it => syscall .fileNext filename it 0 0
  | getTicks => syscall .getTicks frame.ret 0 0 0
  | putc _ => syscall .putc (frame.param 0) 0 0 0
  | printf fmt _ =>
    let argv := frame.param 0 + 4
    syscall .printf fmt argv 0 0
  | srand _ => syscall .srand (frame.param 0) frame.ret 0 0
  | rand => syscall .rand frame.ret 0 0 0
  | sleep _ => syscall .sleep (frame.param 0) 0 0 0
  | exit => syscall .exit 0 0 0 0
  | strlen _ => syscall .strlen (frame.param 0) frame.ret 0 0
  | strcmp _ _ => syscall .strcmp (frame.param 0) (frame.param 1) frame.ret 0
  | readString _ => syscall .readString (frame.param 0) 0 0 0

/-- The parameters the kernel reads through their address are in memory there;
arguments after the format follow it on the stack. -/
def WrapperCall.Stored (m : Ram) (base : Word) (frame : Frame) : WrapperCall → Prop
  | putc c => m (base + frame.param 0) = c
  | printf _ args => ∀ a, args.head? = some a → load32 m (base + (frame.param 0 + 4)) = a.raw
  | _ => True

/-- The function of the kernel that the wrapper stands for, with the same numbers
and with pointers moved by the base. -/
def WrapperCall.intended (base : Word) (frame : Frame) : WrapperCall → Invocation
  | puts str => ⟨.displayString (base + str), none⟩
  | exec filename => ⟨.exec (base + filename), some (base + frame.ret)⟩
  | keypressed => ⟨.keypressed, some (base + frame.ret)⟩
  | getc => ⟨.getc, some (base + frame.ret)⟩
  | fileStat filename stats => ⟨.fileStat (base + filename) (base + stats), some (base + frame.ret)⟩
  | fileOpen filename => ⟨.fileOpen (base + filename), some (base + frame.ret)⟩
  | fileRead fd buf count => ⟨.fileRead fd (base + buf) count, some (base + frame.ret)⟩
  | fileClose fd => ⟨.fileClose fd, none⟩
  | fileSeek fd offset => ⟨.fileSeek fd offset, some (base + frame.ret)⟩
  | fileRemove filename => ⟨.fileRemove (base + filename), some (base + frame.ret)⟩
  | fileIterator => ⟨.fileIterator, some (base + frame.ret)⟩
  | fileHasNext it => ⟨.fileHasNext (base + it), some (base + frame.ret)⟩
  | fileNext filename it => ⟨.fileNext (base + filename) (base + it), none⟩
  | getTicks => ⟨.getTicks, some (base + frame.ret)⟩
  | putc c => ⟨.displayCarac c, none⟩
  | printf fmt args => ⟨.printf (base + fmt) (args.map (Vararg.relocated base)), none⟩
  | srand seed => ⟨.srand seed, some (base + frame.ret)⟩
  | rand => ⟨.rand, some (base + frame.ret)⟩
  | sleep ms => ⟨.sleep ms, none⟩
  | exit => ⟨.exit, none⟩
  | strlen str => ⟨.strlen (base + str), some (base + frame.ret)⟩
  | strcmp p q => ⟨.strcmp (base + p) (base + q), some (base + frame.ret)⟩
  | readString buffer => ⟨.readString (base + buffer), none⟩

/-- The call made is the one intended; printf may get arguments beyond those intended,
which no conversion of the format uses. -/
def KernelCall.Carries : KernelCall → KernelCall → Prop
  | printf fmt args, printf fmt' args' => fmt = fmt' ∧ args' <+: args
  | made, intended => made = intended

/-- Calling the wrapper makes the kernel call the function it stands for. -/
def Delivers (taskTable : Fin MAX_TASK_COUNT → Task) (m : Ram) (tr base : Word) (frame : Frame)
    (call : WrapperCall) : Prop :=
  ∃ made, syscallEntry taskTable m (call.registers frame) tr = .ok (some made) ∧
    made.resultAt = (call.intended base frame).resultAt ∧
    made.call.Carries (call.intended base frame).call

/-- The arguments that are passed by address happen to equal what the kernel takes for
them, and no argument of printf is lost or needs moving. -/
def WrapperCall.Coincides (base : Word) (frame : Frame) : WrapperCall → Prop
  | fileRead fd _ count => base + frame.param 0 = fd ∧ base + frame.param 2 = count
  | fileClose fd => base + frame.param 0 = fd
  | fileSeek fd offset => base + frame.param 0 = fd ∧ base + frame.param 1 = offset
  | sleep ms => base + frame.param 0 = ms
  | strlen str => frame.param 0 = str
  | strcmp p q => frame.param 0 = p ∧ frame.param 1 = q
  | readString buffer => frame.param 0 = buffer
  | printf _ args => args.length ≤ 1 ∧ ∀ address, Vararg.pointer address ∈ args → base = 0
  | srand _ => False
  | rand => False
  | _ => True

section

variable {taskTable : Fin MAX_TASK_COUNT → Task} {m : Ram} {tr base : Word} {task : Task}

/-- The handler relocates all four arguments by the base of the caller. -/
theorem syscallEntry_eq (m : Ram) (htask : callerTask taskTable tr = .ok task)
    (hbase : (task.taskLdt 1).base = base) (nb : SyscallNb) (arg1 arg2 arg3 arg4 : Word) :
    syscallEntry taskTable m (syscall nb arg1 arg2 arg3 arg4) tr =
      .ok (nb.function m (base + arg1) (base + arg2) (base + arg3) (base + arg4)) := by
  have hnb : (BitVec.ofNat 32 nb.value).toNat = nb.value := by
    cases nb <;> rfl
  simp only [syscallEntry, syscallHandler, syscall, htask, ok_bind, hnb, funcSyscalls_value, hbase]

/-- The one argument that reaches the kernel's printf is the first, unchanged. -/
theorem printf_carries_iff {fmt word : Word} {args : List Vararg}
    (hword : ∀ a, args.head? = some a → word = a.raw) :
    (KernelCall.printf fmt [word]).Carries (.printf fmt (args.map (Vararg.relocated base))) ↔
      args.length ≤ 1 ∧ ∀ address, Vararg.pointer address ∈ args → base = 0 := by
  simp only [KernelCall.Carries, true_and]
  cases args with
  | nil => simp
  | cons a rest =>
    cases rest with
    | nil =>
      rw [hword a rfl]
      cases a with
      | scalar value => simp [Vararg.raw, Vararg.relocated]
      | pointer address => simp [Vararg.raw, Vararg.relocated]
    | cons b rest =>
      refine iff_of_false (fun hprefix => ?_) (fun h => ?_)
      · have hlen := hprefix.length_le
        simp at hlen
      · have hlen := h.1
        simp at hlen

/-- A wrapper delivers its arguments exactly when those passed by address coincide. -/
theorem delivers_iff_coincides (htask : callerTask taskTable tr = .ok task)
    (hbase : (task.taskLdt 1).base = base) {frame : Frame} {call : WrapperCall}
    (hstored : call.Stored m base frame) :
    Delivers taskTable m tr base frame call ↔ call.Coincides base frame := by
  have hentry := syscallEntry_eq m htask hbase
  cases call with
  | printf fmt args =>
    simp only [Delivers, WrapperCall.registers, hentry, SyscallNb.function, syscallPrintf,
      WrapperCall.intended, Except.ok.injEq, Option.some.injEq, exists_eq_left', true_and]
    exact printf_carries_iff hstored
  | putc c =>
    -- the one number passed by address that the kernel function dereferences
    have hchar : m (base + frame.param 0) = c := hstored
    simp [Delivers, WrapperCall.registers, hentry, SyscallNb.function, WrapperCall.intended,
      WrapperCall.Coincides, KernelCall.Carries, hchar]
  | _ =>
    simp [Delivers, WrapperCall.registers, hentry, SyscallNb.function, WrapperCall.intended,
      WrapperCall.Coincides, KernelCall.Carries]

end

section Examples

/-- The tasks as task_setup makes them, all at one base. -/
def tasksAt (base : Word) : Fin MAX_TASK_COUNT → Task :=
  fun _ => { taskLdt := fun i =>
    if i = 0 then gdtMakeCodeSegment base 4 DPL_USER else gdtMakeDataSegment base 4 DPL_USER }

/-- The selector of the first task's TSS, entry 4 of the GDT. -/
theorem callerTask_first (taskTable : Fin MAX_TASK_COUNT → Task) :
    callerTask taskTable 32 = .ok (taskTable 0) := by
  simp [callerTask]

theorem tasksAt_base (base : Word) : ((tasksAt base 0).taskLdt 1).base = base :=
  buildEntry_base base _ _ _ _ _ _

/-- Parameters next to each other on the stack, and a variable below them. -/
def exampleFrame : Frame where
  param := fun i => 0x4000 + 4 * BitVec.ofNat 32 i
  ret := 0x3ff0

/-- file_stat takes its two pointers by value. -/
theorem delivers_fileStat : Delivers (tasksAt 0x100000) (fun _ => 0) 32 0x100000 exampleFrame
    (.fileStat 0x2000 0x3000) := by
  have hstored : (WrapperCall.fileStat 0x2000 0x3000).Stored (fun _ => 0) 0x100000
      exampleFrame := trivial
  have hcoincides : (WrapperCall.fileStat 0x2000 0x3000).Coincides 0x100000 exampleFrame := trivial
  exact (delivers_iff_coincides (callerTask_first _) (tasksAt_base _) hstored).mpr hcoincides

/-- file_read(3, buf, 47) reaches the kernel with two addresses for its numbers. -/
theorem fileRead_not_delivered :
    syscallEntry (tasksAt 0x100000) (fun _ => 0)
      ((WrapperCall.fileRead 3 0x3000 47).registers exampleFrame) 32 =
      .ok (some ⟨.fileRead 0x104000 0x103000 0x104008, some 0x103ff0⟩) ∧
    ¬ Delivers (tasksAt 0x100000) (fun _ => 0) 32 0x100000 exampleFrame
      (.fileRead 3 0x3000 47) := by
  have hmade : syscallEntry (tasksAt 0x100000) (fun _ => 0)
      ((WrapperCall.fileRead 3 0x3000 47).registers exampleFrame) 32 =
      .ok (some ⟨.fileRead 0x104000 0x103000 0x104008, some 0x103ff0⟩) := by
    decide +kernel
  refine ⟨hmade, ?_⟩
  intro hdelivers
  obtain ⟨made, hok, -, hcarries⟩ := hdelivers
  rw [hmade] at hok
  cases hok
  exact absurd hcarries (by simp [KernelCall.Carries, WrapperCall.intended])

end Examples

end RathalOS.Syscalls
