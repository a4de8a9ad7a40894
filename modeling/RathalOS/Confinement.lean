import RathalOS.Syscalls

/-!
What a system call is allowed to touch. The handler checks neither the number nor the
arguments: it adds the base of the caller, modulo 2^32, and calls the function. Which
arguments are pointers is known to the functions only, so whether a call stays inside
the segment of the caller is up to the caller.
-/
namespace RathalOS.Confinement

open ByteMemory Descriptors Syscalls

/-- The parameters of the kernel functions that are pointers; the arguments that
syscall_printf passes on have the type of one. -/
def handedPointers : KernelCall → List Word
  | .displayString str => [str]
  | .exec filename => [filename]
  | .fileStat filename stat => [filename, stat]
  | .fileOpen filename => [filename]
  | .fileRead _ buf _ => [buf]
  | .fileRemove filename => [filename]
  | .fileHasNext it => [it]
  | .fileNext filename it => [filename, it]
  | .printf fmt args => fmt :: args
  | .strlen s => [s]
  | .strcmp p q => [p, q]
  | .readString buffer => [buffer]
  | _ => []

/-- The arguments that a function of func_syscalls itself reads through. -/
def dereferencedArgs : SyscallNb → List (Fin 4)
  | .putc => [0]
  | .printf => [1]
  | _ => []

/-- Every address that the function of a number reads through, hands to the kernel or
stores its result at. -/
def addresses (f : SyscallNb) (m : Ram) (arg : Fin 4 → Word) : List Word :=
  (dereferencedArgs f).map arg ++
    match f.function m (arg 0) (arg 1) (arg 2) (arg 3) with
    | some invocation => handedPointers invocation.call ++ invocation.resultAt.toList
    | none => []

/-- The arguments that are pointers. -/
def pointerArgs : SyscallNb → List (Fin 4)
  | .puts => [0]
  | .exec => [0, 1]
  | .keypressed => [0]
  | .getc => [0]
  | .fileStat => [0, 1, 2]
  | .fileOpen => [0, 1]
  | .fileRead => [1, 3]
  | .fileClose => []
  | .fileSeek => [2]
  | .fileRemove => [0, 1]
  | .fileIterator => [0]
  | .fileHasNext => [0, 1]
  | .fileNext => [0, 1]
  | .getTicks => [0]
  | .putc => [0]
  | .printf => [0, 1]
  | .srand => []
  | .rand => []
  | .sleep => []
  | .exit => []
  | .strlen => [0, 1]
  | .strcmp => [0, 1, 2]
  | .readString => [0]

/-- The arguments where another pointer is stored: `*argv` of syscall_printf. -/
def pointerWords : SyscallNb → List (Fin 4)
  | .printf => [1]
  | _ => []

/-- The call is in func_syscalls, and its addresses lie in the segment. -/
def Confined (segment : GdtEntry) (m : Ram) (nb : Word) (arg : Fin 4 → Word) : Prop :=
  ∃ f : SyscallNb, nb.toNat = f.value ∧ ∀ a ∈ addresses f m arg, segment.Reaches a.toNat

/-- The arguments as the handler passes them on. -/
def relocated (task : Task) (arg : Fin 4 → Word) : Fin 4 → Word :=
  fun k => task.base + arg k

/-- The handler has returned without calling a function of the kernel, or the call is
confined to the segment of the caller. -/
def Validated (taskTable : Fin MAX_TASK_COUNT → Task) (segment : GdtEntry) (m : Ram)
    (nb : Word) (arg : Fin 4 → Word) (tr : Word) : Prop :=
  syscallHandler taskTable m nb (arg 0) (arg 1) (arg 2) (arg 3) tr = .ok none ∨
    ∃ task, callerTask taskTable tr = .ok task ∧ Confined segment m nb (relocated task arg)

section

variable {taskTable : Fin MAX_TASK_COUNT → Task} {task : Task} {m : Ram} {nb tr : Word}
variable {arg : Fin 4 → Word}

/-- All addresses come from pointer arguments, or from the memory at one. -/
theorem mem_addresses (f : SyscallNb) (m : Ram) (arg : Fin 4 → Word) (a : Word) :
    a ∈ addresses f m arg ↔
      (∃ k ∈ pointerArgs f, arg k = a) ∨ ∃ k ∈ pointerWords f, load32 m (arg k) = a := by
  cases f with
  | printf => simp [addresses, dereferencedArgs, handedPointers, pointerArgs, pointerWords,
      SyscallNb.function, or_assoc, or_left_comm, eq_comm]
  | _ => simp [addresses, dereferencedArgs, handedPointers, pointerArgs, pointerWords,
      SyscallNb.function, or_comm, eq_comm]

/-- A register moved by the base lies in the segment exactly when it is below its size
and the sum does not wrap. -/
theorem reaches_add_iff (segment : GdtEntry) (r : Word) :
    segment.Reaches (segment.base + r).toNat ↔
      r.toNat < segment.size ∧ segment.base.toNat + r.toNat < 2 ^ 32 := by
  have hbase := segment.base.isLt
  have hr := r.isLt
  rw [GdtEntry.Reaches, BitVec.toNat_add]
  omega

theorem exists_value {n : ℕ} (h : n < 23) : ∃ f : SyscallNb, n = f.value := by
  interval_cases n
  exacts [⟨.puts, rfl⟩, ⟨.exec, rfl⟩, ⟨.keypressed, rfl⟩, ⟨.getc, rfl⟩, ⟨.fileStat, rfl⟩,
    ⟨.fileOpen, rfl⟩, ⟨.fileRead, rfl⟩, ⟨.fileClose, rfl⟩, ⟨.fileSeek, rfl⟩, ⟨.fileRemove, rfl⟩,
    ⟨.fileIterator, rfl⟩, ⟨.fileHasNext, rfl⟩, ⟨.fileNext, rfl⟩, ⟨.getTicks, rfl⟩, ⟨.putc, rfl⟩,
    ⟨.printf, rfl⟩, ⟨.srand, rfl⟩, ⟨.rand, rfl⟩, ⟨.sleep, rfl⟩, ⟨.exit, rfl⟩, ⟨.strlen, rfl⟩,
    ⟨.strcmp, rfl⟩, ⟨.readString, rfl⟩]

theorem syscallHandler_value (htask : callerTask taskTable tr = .ok task) (m : Ram)
    (arg : Fin 4 → Word) {f : SyscallNb} (hf : nb.toNat = f.value) :
    syscallHandler taskTable m nb (arg 0) (arg 1) (arg 2) (arg 3) tr =
      .ok (f.function m (relocated task arg 0) (relocated task arg 1) (relocated task arg 2)
        (relocated task arg 3)) := by
  rw [syscallHandler, htask, ok_bind, hf]
  simp only [funcSyscalls_value]
  rfl

/-- From 23 on the number is used to read after the end of func_syscalls. -/
theorem syscallHandler_outside (htask : callerTask taskTable tr = .ok task) (m : Ram)
    (arg : Fin 4 → Word) (hnb : 23 ≤ nb.toNat) :
    syscallHandler taskTable m nb (arg 0) (arg 1) (arg 2) (arg 3) tr = .error .undefined := by
  have hnone : funcSyscalls[nb.toNat]? = none := List.getElem?_eq_none hnb
  rw [syscallHandler, htask, ok_bind]
  simp only [hnone]

/-- The only calls that invoke nothing use no pointer. -/
theorem confined_of_none (htask : callerTask taskTable tr = .ok task) (segment : GdtEntry)
    (h : syscallHandler taskTable m nb (arg 0) (arg 1) (arg 2) (arg 3) tr = .ok none) :
    Confined segment m nb (relocated task arg) := by
  by_cases hnb : nb.toNat < 23
  · obtain ⟨f, hf⟩ := exists_value hnb
    rw [syscallHandler_value htask m arg hf] at h
    refine ⟨f, hf, fun a ha => ?_⟩
    cases f with
    | srand => exact nomatch ha
    | rand => exact nomatch ha
    | _ => cases h
  · rw [syscallHandler_outside htask m arg (by omega)] at h
    cases h

theorem validated_iff_confined (htask : callerTask taskTable tr = .ok task) (segment : GdtEntry)
    (m : Ram) (nb : Word) (arg : Fin 4 → Word) :
    Validated taskTable segment m nb arg tr ↔ Confined segment m nb (relocated task arg) := by
  constructor
  · intro h
    rcases h with hnone | ⟨task', htask', hconfined⟩
    · exact confined_of_none htask segment hnone
    · cases htask.symm.trans htask'
      exact hconfined
  · intro h
    exact Or.inr ⟨task, htask, h⟩

theorem confined_iff (segment : GdtEntry) (m : Ram) (nb : Word) (arg : Fin 4 → Word) :
    Confined segment m nb arg ↔ ∃ f : SyscallNb, nb.toNat = f.value ∧
      (∀ k ∈ pointerArgs f, segment.Reaches (arg k).toNat) ∧
      ∀ k ∈ pointerWords f, segment.Reaches (load32 m (arg k)).toNat := by
  simp only [Confined, mem_addresses, or_imp, forall_and, forall_exists_index, and_imp,
    forall_apply_eq_imp_iff₂]

/-- The handler calls the function of every number below 23, with the base of the task it
reads added to the four arguments, and rejects nothing. The call stays inside the segment
of the caller exactly when the sums that are used as pointers happen to lie there. Where
the handler reads the caller's own entry, these are the arguments below the size of the
segment whose sum does not wrap. -/
theorem syscallHandler_validated_iff (htask : callerTask taskTable tr = .ok task)
    (segment : GdtEntry) (m : Ram) (nb : Word) (arg : Fin 4 → Word) :
    (nb.toNat < 23 → ∃ f : SyscallNb, nb.toNat = f.value ∧
      syscallHandler taskTable m nb (arg 0) (arg 1) (arg 2) (arg 3) tr =
        .ok (f.function m (relocated task arg 0) (relocated task arg 1) (relocated task arg 2)
          (relocated task arg 3))) ∧
    (23 ≤ nb.toNat →
      syscallHandler taskTable m nb (arg 0) (arg 1) (arg 2) (arg 3) tr = .error .undefined) ∧
    (Validated taskTable segment m nb arg tr ↔
      ∃ f : SyscallNb, nb.toNat = f.value ∧
        (∀ k ∈ pointerArgs f, segment.Reaches (relocated task arg k).toNat) ∧
        ∀ k ∈ pointerWords f, segment.Reaches (load32 m (relocated task arg k)).toNat) ∧
    (segment = task.taskLdt 1 → ∀ k, segment.Reaches (relocated task arg k).toNat ↔
      (arg k).toNat < segment.size ∧ segment.base.toNat + (arg k).toNat < 2 ^ 32) := by
  refine ⟨fun hnb => ?_, syscallHandler_outside htask m arg, ?_, ?_⟩
  · obtain ⟨f, hf⟩ := exists_value hnb
    exact ⟨f, hf, syscallHandler_value htask m arg hf⟩
  · rw [validated_iff_confined htask, confined_iff]
  · rintro rfl k
    exact reaches_add_iff _ _

end

section Examples

/-- A buffer of the first task, in a segment at 1 MB. -/
theorem syscallHandler_validated_first :
    Validated (tasksAt 0x100000) ((tasksAt 0x100000 0).taskLdt 1) (fun _ => 0) 0
      (fun _ => 0x3000) 32 := by
  have hbase := tasksAt_base 0x100000
  have hsize : ((tasksAt 0x100000 0).taskLdt 1).size = 20480 := rfl
  obtain ⟨-, -, hiff, hown⟩ := syscallHandler_validated_iff (callerTask_first (tasksAt 0x100000))
    ((tasksAt 0x100000 0).taskLdt 1) (fun _ => 0) 0 (fun _ => 0x3000)
  refine hiff.mpr ⟨.puts, rfl, fun k _ => (hown rfl k).mpr ?_, fun k hk => nomatch hk⟩
  rw [hbase, hsize]
  decide

/-- The result of keypressed is stored at address 16, below the segment of the caller,
and a number after the last is used as well. -/
theorem syscallHandler_unchecked :
    syscallHandler (tasksAt 0x100000) (fun _ => 0) 2 0xfff00010 0 0 0 32 =
      .ok (some ⟨.keypressed, some 0x10⟩) ∧
    (∀ arg : Fin 4 → Word, arg 0 = 0xfff00010 →
      ¬ Validated (tasksAt 0x100000) ((tasksAt 0x100000 0).taskLdt 1) (fun _ => 0) 2 arg 32) ∧
    ∀ arg : Fin 4 → Word,
      ¬ Validated (tasksAt 0x100000) ((tasksAt 0x100000 0).taskLdt 1) (fun _ => 0) 23 arg 32 := by
  have hbase := tasksAt_base 0x100000
  have htask := callerTask_first (tasksAt 0x100000)
  refine ⟨by decide +kernel, ?_, ?_⟩
  · intro arg harg h
    rw [validated_iff_confined htask, confined_iff] at h
    obtain ⟨f, hf, hargs, -⟩ := h
    obtain rfl : f = .keypressed := by
      cases f <;> first | rfl | exact absurd hf (by decide)
    have hlow := (hargs 0 (by decide)).1
    rw [relocated, harg, hbase] at hlow
    exact absurd hlow (by decide)
  · intro arg h
    rw [validated_iff_confined htask] at h
    obtain ⟨f, hf, -⟩ := h
    cases f <;> exact absurd hf (by decide)

end Examples

end RathalOS.Confinement
