import RathalOS.Syscalls
import Mathlib.Data.List.FinRange
import Mathlib.Logic.Function.Basic

/-!
The tasks of kernel/task/task.c. task_setup gives every entry of the task table two
entries of the GDT, for its TSS and its LDT, and in the LDT the descriptors of its
code and data segments. Each round of its loop is about one task and its two entries.
-/
namespace RathalOS.Tasks

open ByteMemory Descriptors Syscalls

def GDT_RESERVED_ENTRIES : ℕ := 4
def GDT_KERNEL_DATA_SELECTOR : BitVec 16 := 0x10
def LDT_SELECTOR : BitVec 16 := 0x4

def GDT_INDEX_TO_SELECTOR (idx : ℕ) : Word := BitVec.ofNat 32 idx <<< 3

/-- `tss_t`, without its reserved fields. -/
structure Tss where
  previousTaskLink : BitVec 16
  esp0 : Word
  ss0 : BitVec 16
  esp1 : Word
  ss1 : BitVec 16
  esp2 : Word
  ss2 : BitVec 16
  cr3 : Word
  eip : Word
  eflags : Word
  eax : Word
  ecx : Word
  edx : Word
  ebx : Word
  esp : Word
  ebp : Word
  esi : Word
  edi : Word
  es : BitVec 16
  cs : BitVec 16
  ss : BitVec 16
  ds : BitVec 16
  fs : BitVec 16
  gs : BitVec 16
  ldtSelector : BitVec 16
  iomapBaseAddr : BitVec 16

def Tss.zero : Tss :=
  ⟨0, 0, 0, 0, 0, 0, 0, 0, 0, 0, 0, 0, 0, 0, 0, 0, 0, 0, 0, 0, 0, 0, 0, 0, 0, 0⟩

/-- An entry of the task table, which the system calls know by its descriptors only. -/
structure TaskEntry extends Task where
  taskTss : Tss
  tssSelector : BitVec 16
  taskAddrSpace : Memory
  taskKernelStack : Memory
  status : Word

section Layout

/-- The packed layout of `task_t`, whose address space starts on a page. -/
def sizeofTss : ℕ := 104
def ldtOffset : ℕ := sizeofTss + 2
def sizeofLdt : ℕ := 16
def addrSpaceOffset : ℕ := 4096
def addrSpaceSize : ℕ := 16834
def kernelStackOffset : ℕ := addrSpaceOffset + addrSpaceSize
def kernelStackSize : ℕ := 4096

/-- The status is last, and the alignment of the address space is that of the entry. -/
def sizeofTask : ℕ := (kernelStackOffset + kernelStackSize + 4 + 4095) / 4096 * 4096

theorem sizeofTask_eq : sizeofTask = 28672 := by decide

/-- Where the task table lies. -/
structure Placement where
  address : Word
  aligned : 4096 ∣ address.toNat
  fits : address.toNat + MAX_TASK_COUNT * sizeofTask ≤ 2 ^ 32

/-- The address of a byte of a task's entry. -/
def Placement.entryAddress (p : Placement) (index : Fin MAX_TASK_COUNT) (offset : ℕ) : Word :=
  p.address + BitVec.ofNat 32 (sizeofTask * index + offset)

theorem Placement.entryAddress_toNat (p : Placement) (index : Fin MAX_TASK_COUNT) {offset : ℕ}
    (h : offset < sizeofTask) :
    (p.entryAddress index offset).toNat = p.address.toNat + sizeofTask * index + offset := by
  have hfits : p.address.toNat + 10 * 28672 ≤ 2 ^ 32 := p.fits
  have hindex : (index : ℕ) < 10 := index.isLt
  rw [sizeofTask_eq] at h
  rw [Placement.entryAddress, BitVec.toNat_add, BitVec.toNat_ofNat, sizeofTask_eq]
  omega

/-- Where the address space of a task starts. -/
def Placement.addrSpace (p : Placement) (index : Fin MAX_TASK_COUNT) : ℕ :=
  (p.entryAddress index addrSpaceOffset).toNat

theorem Placement.addrSpace_eq (p : Placement) (index : Fin MAX_TASK_COUNT) :
    p.addrSpace index = p.address.toNat + sizeofTask * index + 4096 :=
  p.entryAddress_toNat index (by decide)

end Layout

/-- The GDT and the task table. -/
structure Tables where
  gdtTable : Fin 24 → GdtEntry
  taskTable : Fin MAX_TASK_COUNT → TaskEntry

def gdtMakeTss (tss : Word) (dpl : BitVec 8) : GdtEntry :=
  buildEntry tss (BitVec.ofNat 32 (sizeofTss - 1)) TYPE_TSS S_SYSTEM DB_SYS 0 dpl

/-- The entries of a task in the GDT. -/
def tssEntry (index : Fin MAX_TASK_COUNT) : Fin 24 :=
  ⟨GDT_RESERVED_ENTRIES + 2 * index, by
    have hindex : (index : ℕ) < 10 := index.isLt
    simp only [GDT_RESERVED_ENTRIES]
    omega⟩

def ldtEntry (index : Fin MAX_TASK_COUNT) : Fin 24 :=
  ⟨GDT_RESERVED_ENTRIES + 2 * index + 1, by
    have hindex : (index : ℕ) < 10 := index.isLt
    simp only [GDT_RESERVED_ENTRIES]
    omega⟩

/-- The entry of a task as one round of the loop leaves it. The base of its segments is
the first byte of the address space, `*task_addr_space`, and not the address of it. -/
def initialised (p : Placement) (index : Fin MAX_TASK_COUNT) (task : TaskEntry) : TaskEntry :=
  let gdtTssSel := GDT_INDEX_TO_SELECTOR (tssEntry index)
  let gdtLdtSel := GDT_INDEX_TO_SELECTOR (ldtEntry index)
  let limit := addrSpaceSize
  let base : Word := (task.taskAddrSpace 0).setWidth 32
  let user := (GDT_INDEX_TO_SELECTOR 1).setWidth 16 ||| DPL_USER.setWidth 16 ||| LDT_SELECTOR
  { task with
    taskLdt := fun k =>
      if k.val = 0 then gdtMakeCodeSegment base (BitVec.ofNat 32 (limit / 4096)) DPL_USER
      else gdtMakeDataSegment base (BitVec.ofNat 32 (limit / 4096)) DPL_USER
    tssSelector := gdtTssSel.setWidth 16
    taskTss := { Tss.zero with
      ldtSelector := gdtLdtSel.setWidth 16
      eip := 0
      esp := BitVec.ofNat 32 limit
      ebp := BitVec.ofNat 32 limit
      cs := (GDT_INDEX_TO_SELECTOR 0).setWidth 16 ||| DPL_USER.setWidth 16 ||| LDT_SELECTOR
      ds := user
      es := user
      fs := user
      gs := user
      ss := user
      eflags := 1 <<< 9
      ss0 := GDT_KERNEL_DATA_SELECTOR
      esp0 := p.entryAddress index kernelStackOffset + BitVec.ofNat 32 kernelStackSize } }

/-- One round of the loop of task_setup. -/
def setupTask (p : Placement) (t : Tables) (index : Fin MAX_TASK_COUNT) : Tables where
  gdtTable := Function.update
    (Function.update t.gdtTable (tssEntry index) (gdtMakeTss (p.entryAddress index 0) DPL_KERNEL))
    (ldtEntry index)
    (gdtMakeLdt (p.entryAddress index ldtOffset) (BitVec.ofNat 32 (sizeofLdt - 1)) DPL_KERNEL)
  taskTable := Function.update t.taskTable index (initialised p index (t.taskTable index))

def taskSetup (p : Placement) (t : Tables) : Tables :=
  (List.finRange MAX_TASK_COUNT).foldl (setupTask p) t

section Setup

variable {p : Placement} {t : Tables} {i j : Fin MAX_TASK_COUNT}

theorem setupTask_self (p : Placement) (t : Tables) (i : Fin MAX_TASK_COUNT) :
    (setupTask p t i).taskTable i = initialised p i (t.taskTable i) :=
  Function.update_self _ _ _

theorem setupTask_other (p : Placement) (t : Tables) (h : j ≠ i) :
    (setupTask p t i).taskTable j = t.taskTable j := Function.update_of_ne h _ _

/-- A run of rounds initialises the tasks it is about, each from what it found there. -/
theorem setupTasks_taskTable (p : Placement) (l : List (Fin MAX_TASK_COUNT)) (hl : l.Nodup)
    (t : Tables) (i : Fin MAX_TASK_COUNT) :
    (l.foldl (setupTask p) t).taskTable i =
      if i ∈ l then initialised p i (t.taskTable i) else t.taskTable i := by
  induction l generalizing t with
  | nil => rfl
  | cons j rest ih =>
    obtain ⟨hj, hrest⟩ := List.nodup_cons.mp hl
    rw [List.foldl_cons, ih hrest]
    by_cases hij : i = j
    · rw [if_neg (hij ▸ hj), hij, setupTask_self, if_pos List.mem_cons_self]
    · rw [setupTask_other p t hij]
      simp only [List.mem_cons, hij, false_or]

theorem taskSetup_taskTable (p : Placement) (t : Tables) (i : Fin MAX_TASK_COUNT) :
    (taskSetup p t).taskTable i = initialised p i (t.taskTable i) := by
  rw [taskSetup, setupTasks_taskTable p _ (List.nodup_finRange _), if_pos (List.mem_finRange i)]

theorem tssEntry_inj (h : tssEntry i = tssEntry j) : i = j := by
  have hval := congrArg Fin.val h
  simp only [tssEntry] at hval
  exact Fin.ext (by omega)

theorem ldtEntry_inj (h : ldtEntry i = ldtEntry j) : i = j := by
  have hval := congrArg Fin.val h
  simp only [ldtEntry] at hval
  exact Fin.ext (by omega)

theorem tssEntry_ne_ldtEntry : tssEntry i ≠ ldtEntry j := by
  intro h
  have hval := congrArg Fin.val h
  simp only [tssEntry, ldtEntry] at hval
  omega

/-- The descriptors of the tasks a run is about name their TSS and LDT. -/
theorem setupTasks_gdtTable (p : Placement) (l : List (Fin MAX_TASK_COUNT)) (t : Tables)
    (h : i ∈ l ∨ (t.gdtTable (tssEntry i) = gdtMakeTss (p.entryAddress i 0) DPL_KERNEL ∧
      t.gdtTable (ldtEntry i) = gdtMakeLdt (p.entryAddress i ldtOffset)
        (BitVec.ofNat 32 (sizeofLdt - 1)) DPL_KERNEL)) :
    (l.foldl (setupTask p) t).gdtTable (tssEntry i) =
        gdtMakeTss (p.entryAddress i 0) DPL_KERNEL ∧
      (l.foldl (setupTask p) t).gdtTable (ldtEntry i) = gdtMakeLdt (p.entryAddress i ldtOffset)
        (BitVec.ofNat 32 (sizeofLdt - 1)) DPL_KERNEL := by
  induction l generalizing t with
  | nil => exact h.resolve_left List.not_mem_nil
  | cons j rest ih =>
    apply ih
    by_cases hij : i = j
    · subst hij
      refine Or.inr ⟨?_, Function.update_self _ _ _⟩
      simp only [setupTask]
      rw [Function.update_of_ne tssEntry_ne_ldtEntry, Function.update_self]
    · refine h.imp (fun hmem => (List.mem_cons.mp hmem).resolve_left hij) fun hold => ?_
      obtain ⟨htss, hldt⟩ := hold
      simp only [setupTask]
      constructor
      · rw [Function.update_of_ne tssEntry_ne_ldtEntry,
          Function.update_of_ne (fun heq => hij (tssEntry_inj heq)), htss]
      · rw [Function.update_of_ne (fun heq => hij (ldtEntry_inj heq)),
          Function.update_of_ne tssEntry_ne_ldtEntry.symm, hldt]

/-- The TSS selector of a task names the descriptor of its own TSS in the GDT. -/
theorem taskSetup_selector (p : Placement) (t : Tables) (i : Fin MAX_TASK_COUNT) :
    ((taskSetup p t).taskTable i).tssSelector.toNat = 8 * (tssEntry i : ℕ) ∧
      (taskSetup p t).gdtTable (tssEntry i) = gdtMakeTss (p.entryAddress i 0) DPL_KERNEL := by
  refine ⟨?_, (setupTasks_gdtTable p _ t (Or.inl (List.mem_finRange i))).1⟩
  rw [taskSetup_taskTable]
  have hi := (tssEntry i).isLt
  simp only [initialised, GDT_INDEX_TO_SELECTOR, BitVec.toNat_setWidth, BitVec.toNat_shiftLeft,
    BitVec.toNat_ofNat, Nat.shiftLeft_eq]
  omega

end Setup

end RathalOS.Tasks
