import RathalOS.Tasks

/-!
The segments task_setup gives to the tasks, and the base that a system call is
relocated by. A task has two entries in the GDT but the handler counts one: it reads
the entry of the task table with twice the number of the caller. And the descriptors
of all tasks start in the first 256 bytes of memory.
-/
namespace RathalOS.TaskSegments

open ByteMemory Descriptors Syscalls Tasks

section Relocation

/-- The index of the entry of the task table that syscall_handler reads. -/
def callerIndex (callerTssSelector : Word) : ℕ := ((callerTssSelector >>> 3) - 4).toNat

/-- The base that syscall_handler adds to the arguments. -/
def handlerBase (taskTable : Fin MAX_TASK_COUNT → Task) (callerTssSelector : Word) :
    Except Fault Word := do
  let task ← callerTask taskTable callerTssSelector
  .ok task.base

/-- The call of func_syscalls[nb]. -/
def dispatch (m : Ram) (nb arg1 arg2 arg3 arg4 : Word) : Except Fault (Option Invocation) :=
  match funcSyscalls[nb.toNat]? with
  | some f => .ok (f m arg1 arg2 arg3 arg4)
  | none => .error .undefined

variable {taskTable : Fin MAX_TASK_COUNT → Task} {m : Ram} {nb arg1 arg2 arg3 arg4 tr : Word}

theorem syscallHandler_eq (taskTable : Fin MAX_TASK_COUNT → Task) (m : Ram)
    (nb arg1 arg2 arg3 arg4 tr : Word) :
    syscallHandler taskTable m nb arg1 arg2 arg3 arg4 tr = (do
      let base ← handlerBase taskTable tr
      dispatch m nb (base + arg1) (base + arg2) (base + arg3) (base + arg4)) := by
  rw [syscallHandler, handlerBase]
  cases callerTask taskTable tr with
  | error e => rfl
  | ok task => rfl

theorem callerTask_eq (taskTable : Fin MAX_TASK_COUNT → Task) (tr : Word) :
    callerTask taskTable tr = if h : callerIndex tr < MAX_TASK_COUNT
      then .ok (taskTable ⟨callerIndex tr, h⟩) else .error .undefined := rfl

/-- A system call of task i reads the entry of task i and adds the base stored there. -/
structure OwnBase (taskTable : Fin MAX_TASK_COUNT → Task) (m : Ram)
    (nb arg1 arg2 arg3 arg4 tr : Word) (i : Fin MAX_TASK_COUNT) : Prop where
  index : callerIndex tr = i
  base : handlerBase taskTable tr = .ok ((taskTable i).taskLdt 1).base
  call : syscallHandler taskTable m nb arg1 arg2 arg3 arg4 tr =
    dispatch m nb (((taskTable i).taskLdt 1).base + arg1) (((taskTable i).taskLdt 1).base + arg2)
      (((taskTable i).taskLdt 1).base + arg3) (((taskTable i).taskLdt 1).base + arg4)

/-- The task register while task i runs: the selector task_setup gave it. -/
def taskRegister (p : Placement) (t : Tables) (i : Fin MAX_TASK_COUNT) : Word :=
  ((taskSetup p t).taskTable i).tssSelector.setWidth 32

theorem taskRegister_toNat (p : Placement) (t : Tables) (i : Fin MAX_TASK_COUNT) :
    (taskRegister p t i).toNat = 8 * (4 + 2 * (i : ℕ)) := by
  have hi : (i : ℕ) < 10 := i.isLt
  rw [taskRegister, BitVec.toNat_setWidth, (taskSetup_selector p t i).1]
  simp only [tssEntry, GDT_RESERVED_ENTRIES]
  omega

/-- Two entries of the GDT for each task, of which the handler counts one. -/
theorem callerIndex_taskRegister (p : Placement) (t : Tables) (i : Fin MAX_TASK_COUNT) :
    callerIndex (taskRegister p t i) = 2 * (i : ℕ) := by
  have hi : (i : ℕ) < 10 := i.isLt
  have htr := taskRegister_toNat p t i
  rw [callerIndex, BitVec.toNat_sub, BitVec.toNat_ushiftRight, htr, Nat.shiftRight_eq_div_pow,
    show (4 : Word).toNat = 4 from rfl]
  omega

/-- The base added for task i is that of task 2 * i, and from i = 5 on what lies after
the table. -/
theorem handlerBase_taskRegister (p : Placement) (t : Tables)
    (taskTable : Fin MAX_TASK_COUNT → Task) (i : Fin MAX_TASK_COUNT) :
    handlerBase taskTable (taskRegister p t i) = if h : 2 * (i : ℕ) < MAX_TASK_COUNT
      then .ok ((taskTable ⟨2 * i, h⟩).taskLdt 1).base else .error .undefined := by
  rw [handlerBase, callerTask_eq]
  simp only [callerIndex_taskRegister]
  split
  · rfl
  · rfl

/-- A system call is relocated by the caller's own base for the first task only. -/
theorem ownBase_iff (p : Placement) (t : Tables) (taskTable : Fin MAX_TASK_COUNT → Task)
    (m : Ram) (nb arg1 arg2 arg3 arg4 : Word) (i : Fin MAX_TASK_COUNT) :
    OwnBase taskTable m nb arg1 arg2 arg3 arg4 (taskRegister p t i) i ↔ i = 0 := by
  constructor
  · intro h
    have hindex := h.index
    rw [callerIndex_taskRegister] at hindex
    have hzero : (i : ℕ) = 0 := by omega
    exact Fin.ext hzero
  · rintro rfl
    have hbase : handlerBase taskTable (taskRegister p t 0) =
        .ok ((taskTable 0).taskLdt 1).base := by
      rw [handlerBase_taskRegister]
      rfl
    constructor
    case index => rw [callerIndex_taskRegister]; rfl
    case base => exact hbase
    case call => rw [syscallHandler_eq, hbase, ok_bind]

end Relocation

section Segments

/-- A segment starts where the address space of a task does. -/
def StartsAtSpace (p : Placement) (i : Fin MAX_TASK_COUNT) (segment : GdtEntry) : Prop :=
  segment.base.toNat = p.addrSpace i

/-- A segment lies inside the address space of a task. -/
def InsideSpace (p : Placement) (i : Fin MAX_TASK_COUNT) (segment : GdtEntry) : Prop :=
  ∀ a, segment.Reaches a → p.addrSpace i ≤ a ∧ a < p.addrSpace i + addrSpaceSize

/-- Two segments have no byte in common. -/
def Apart (segment segment' : GdtEntry) : Prop := ∀ a, segment.Reaches a → ¬ segment'.Reaches a

/-- The segments of task i give it its address space and nothing else. -/
structure Isolated (p : Placement) (taskTable : Fin MAX_TASK_COUNT → TaskEntry)
    (i : Fin MAX_TASK_COUNT) : Prop where
  starts : ∀ k, StartsAtSpace p i ((taskTable i).taskLdt k)
  inside : ∀ k, InsideSpace p i ((taskTable i).taskLdt k)
  apart : ∀ j, j ≠ i → ∀ k l, Apart ((taskTable i).taskLdt k) ((taskTable j).taskLdt l)

variable (p : Placement) (t : Tables) (i : Fin MAX_TASK_COUNT)

/-- The base is a byte, and the pages of the limit are one more than fit. -/
theorem taskSetup_segment (k : Fin 2) :
    (((taskSetup p t).taskTable i).taskLdt k).base = ((t.taskTable i).taskAddrSpace 0).setWidth 32 ∧
      (((taskSetup p t).taskTable i).taskLdt k).size = 20480 := by
  obtain ⟨type, htype⟩ : ∃ type, ((taskSetup p t).taskTable i).taskLdt k =
      buildEntry (((t.taskTable i).taskAddrSpace 0).setWidth 32)
        (BitVec.ofNat 32 (addrSpaceSize / 4096)) type S_CODE_OR_DATA DB_SEG 1 DPL_USER := by
    rw [taskSetup_taskTable]
    by_cases hk : k.val = 0
    · exact ⟨TYPE_CODE_EXECREAD, if_pos hk⟩
    · exact ⟨TYPE_DATA_READWRITE, if_neg hk⟩
  rw [htype, buildEntry_base, GdtEntry.size, buildEntry_limit]
  exact ⟨rfl, rfl⟩

/-- The segments of every task start below address 256, outside its address space, and
overlap with those of every other task. -/
theorem taskSetup_not_isolated (k : Fin 2) :
    ¬ StartsAtSpace p i (((taskSetup p t).taskTable i).taskLdt k) ∧
      ¬ InsideSpace p i (((taskSetup p t).taskTable i).taskLdt k) ∧
      (∀ j l, ¬ Apart (((taskSetup p t).taskTable i).taskLdt k)
        (((taskSetup p t).taskTable j).taskLdt l)) ∧
      ¬ Isolated p (taskSetup p t).taskTable i := by
  have hspace := p.addrSpace_eq i
  have hlow : ∀ j l, (((taskSetup p t).taskTable j).taskLdt l).base.toNat < 256 := by
    intro j l
    rw [(taskSetup_segment p t j l).1, BitVec.toNat_setWidth]
    have hbyte := ((t.taskTable j).taskAddrSpace 0).isLt
    omega
  have hstarts : ¬ StartsAtSpace p i (((taskSetup p t).taskTable i).taskLdt k) := by
    intro h
    have hbase := hlow i k
    rw [StartsAtSpace] at h
    omega
  refine ⟨hstarts, ?_, ?_, fun h => hstarts (h.starts k)⟩
  · intro h
    have hbase := hlow i k
    have hinside := (h _ (GdtEntry.reaches_base _)).1
    omega
  · intro j l h
    -- byte 255 is in all segments
    have hreaches : ∀ j l, (((taskSetup p t).taskTable j).taskLdt l).Reaches 255 := by
      intro j l
      have hbase := hlow j l
      rw [GdtEntry.Reaches, (taskSetup_segment p t j l).2]
      omega
    exact h 255 (hreaches i k) (hreaches j l)

end Segments

section Examples

/-- The tables before gdt_init, which are zero. -/
def zeroTables : Tables where
  gdtTable := fun _ => gdtMakeNullSegment
  taskTable := fun _ => {
    taskLdt := fun _ => gdtMakeNullSegment
    taskTss := Tss.zero
    tssSelector := 0
    taskAddrSpace := fun _ => 0
    taskKernelStack := fun _ => 0
    status := 0 }

/-- The task table at 1 MB. -/
def examplePlacement : Placement where
  address := 0x100000
  aligned := by decide
  fits := by decide

/-- Tasks with data segments 1 MB apart. -/
def tasksApart : Fin MAX_TASK_COUNT → Task := fun i =>
  { taskLdt := fun _ => gdtMakeDataSegment (0x100000 * BitVec.ofNat 32 (i + 1)) 4 DPL_USER }

/-- A system call of the second task is relocated by the base of the third. -/
theorem ownBase_second :
    ((tasksApart 1).taskLdt 1).base = 0x200000 ∧
    handlerBase tasksApart (taskRegister examplePlacement zeroTables 1) = .ok 0x300000 ∧
    ¬ OwnBase tasksApart (fun _ => 0) 2 0 0 0 0 (taskRegister examplePlacement zeroTables 1) 1 := by
  have hown : ((tasksApart 1).taskLdt 1).base = 0x200000 := buildEntry_base _ _ _ _ _ _ _
  have hthird : ((tasksApart 2).taskLdt 1).base = 0x300000 := buildEntry_base _ _ _ _ _ _ _
  have hread : handlerBase tasksApart (taskRegister examplePlacement zeroTables 1) =
      .ok 0x300000 := by
    rw [handlerBase_taskRegister, ← hthird]
    rfl
  refine ⟨hown, hread, fun h => ?_⟩
  have hbase := h.base
  rw [hread, hown] at hbase
  exact absurd (Except.ok.inj hbase) (by decide)

/-- The segments of the first task start at address 0, below the task table. -/
theorem taskSetup_low :
    (((taskSetup examplePlacement zeroTables).taskTable 0).taskLdt 1).base = 0 ∧
    (((taskSetup examplePlacement zeroTables).taskTable 0).taskLdt 1).Reaches 0 ∧
    examplePlacement.addrSpace 0 = 0x101000 ∧
    ¬ Isolated examplePlacement (taskSetup examplePlacement zeroTables).taskTable 0 := by
  have hbase : (((taskSetup examplePlacement zeroTables).taskTable 0).taskLdt 1).base = 0 :=
    (taskSetup_segment examplePlacement zeroTables 0 1).1
  have hspace : examplePlacement.addrSpace 0 = 0x101000 := examplePlacement.addrSpace_eq 0
  have hreaches := GdtEntry.reaches_base
    (((taskSetup examplePlacement zeroTables).taskTable 0).taskLdt 1)
  rw [hbase] at hreaches
  refine ⟨hbase, hreaches, hspace, fun h => ?_⟩
  have hstarts := h.starts 1
  rw [StartsAtSpace, hbase, hspace] at hstarts
  exact absurd hstarts (by decide)

end Examples

end RathalOS.TaskSegments
