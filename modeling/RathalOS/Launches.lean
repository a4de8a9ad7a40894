import RathalOS.Cursors
import RathalOS.FileRemoval
import RathalOS.TaskSegments
import RathalOS.Runs
import Mathlib.Data.Fintype.Card
import Mathlib.Data.Finset.Card

/-!
Launching programs, exec of kernel/task/task.c. A program gets the first entry of the task
table whose status is 0, and exec sets the status to 1. Nothing ever sets it back, so
every launch costs an entry for good, and none succeeds after the tenth.
-/
namespace RathalOS.Launches

open ByteMemory Inodes KernelFiles KernelReads Cursors Syscalls Tasks Runs

def TASK_FAILURE : ℤ := -1
def TASK_SUCCESS : ℤ := 1

structure System where
  kernel : Kernel
  taskTable : Fin MAX_TASK_COUNT → TaskEntry

/-- The loop over the entries that remain. After the last one it looks at a status beyond
the table, but stops at the index whatever it finds there. -/
def searchLoop (taskTable : Fin MAX_TASK_COUNT → TaskEntry) :
    List (Fin MAX_TASK_COUNT) → Option (Fin MAX_TASK_COUNT)
  | [] => none
  | index :: rest =>
    if (taskTable index).status ≠ 0 then searchLoop taskTable rest else some index

/-- The bytes of an entry from the address space on, which the kernel stack follows. -/
def entryBytes (task : TaskEntry) : Memory := fun a =>
  if a < addrSpaceSize then task.taskAddrSpace a else task.taskKernelStack (a - addrSpaceSize)

/-- `file_read(fd, task_addr_space, size)`. It writes whole sectors and one more, which for
a large program reach into the kernel stack of the task. -/
def loadProgram (disk : Memory) (stale : ℕ) (k : Kernel) (fd : ℤ) (task : TaskEntry)
    (size : ℕ) : Except Fault TaskEntry :=
  if SECTOR_SIZE * (size / SECTOR_SIZE + 2) ≤ addrSpaceSize + kernelStackSize then do
    let (_, buf) ← fileRead k disk stale fd (entryBytes task) size
    .ok { task with
      taskAddrSpace := buf
      taskKernelStack := advance buf addrSpaceSize }
  else .error .undefined

/-- `exec`, where `taskSwitch` is what the task with a selector makes of the system until
its main has ended and it has returned. -/
def exec (disk : Memory) (stale : ℕ) (taskSwitch : BitVec 16 → System → System) (s : System)
    (filename : Memory) : Except Fault (ℤ × System) := do
  let stats ← fileStat s.kernel filename
  match stats with
  | none => .ok (TASK_FAILURE, s)
  | some stats => do
    let (fd, k) ← fileOpen s.kernel filename
    match searchLoop s.taskTable (List.finRange MAX_TASK_COUNT) with
    | none => .ok (TASK_FAILURE, { s with kernel := k })
    | some index => do
      let task := { s.taskTable index with status := 1 }
      let task ← loadProgram disk stale k fd task (uintOfInt stats.size)
      let k ← fileClose k fd
      let s : System := { kernel := k, taskTable := Function.update s.taskTable index task }
      .ok (TASK_SUCCESS, taskSwitch task.tssSelector s)

/-- A call of exec and the program it runs, which launches no program itself. -/
structure Launch where
  filename : Memory
  taskSwitch : BitVec 16 → System → System
  keeps : ∀ selector s i,
    ((taskSwitch selector s).taskTable i).status = (s.taskTable i).status

/-- The number of entries of the task table that are free. -/
def freeSlots (s : System) : ℕ :=
  (Finset.univ.filter fun i => (s.taskTable i).status = 0).card

/-- The file exists and fits the address space of a task. -/
def Fits (s : System) (l : Launch) : Prop :=
  ∃ stat, fileStat s.kernel l.filename = .ok (some stat) ∧ 0 ≤ stat.size ∧
    stat.size ≤ addrSpaceSize

/-- A descriptor is free. exec takes that for granted. -/
def DescriptorFree (s : System) : Prop :=
  ∃ fd, (s.kernel.fileDescriptorTab fd).status = 0

/-- The file can be loaded. -/
structure Ready (s : System) (l : Launch) : Prop where
  file : Fits s l
  descriptor : DescriptorFree s

section Slots

variable {taskTable : Fin MAX_TASK_COUNT → TaskEntry} {s : System}

theorem searchLoop_some {l : List (Fin MAX_TASK_COUNT)} {index : Fin MAX_TASK_COUNT}
    (h : searchLoop taskTable l = some index) : (taskTable index).status = 0 := by
  induction l with
  | nil => cases h
  | cons i rest ih =>
    rw [searchLoop] at h
    split at h
    · exact ih h
    · rename_i hfree
      cases h
      exact not_not.mp hfree

theorem searchLoop_eq_none_iff {l : List (Fin MAX_TASK_COUNT)} :
    searchLoop taskTable l = none ↔ ∀ index ∈ l, (taskTable index).status ≠ 0 := by
  induction l with
  | nil => simp [searchLoop]
  | cons i rest ih =>
    rw [searchLoop, List.forall_mem_cons, ← ih]
    split
    · rename_i hused
      exact (and_iff_right hused).symm
    · rename_i hfree
      exact iff_of_false (Option.some_ne_none i) fun h => hfree h.1

theorem freeSlots_eq_zero_iff : freeSlots s = 0 ↔
    searchLoop s.taskTable (List.finRange MAX_TASK_COUNT) = none := by
  rw [freeSlots, Finset.card_eq_zero, Finset.filter_eq_empty_iff, searchLoop_eq_none_iff]
  simp only [Finset.mem_univ, true_implies, List.mem_finRange, ne_eq]

/-- Taking one of the free indices. -/
theorem card_take {n m : ℕ} {status status' : Fin n → BitVec m} {i : Fin n} (hfree : status i = 0)
    (hself : status' i ≠ 0) (hother : ∀ j, j ≠ i → status' j = status j) :
    (Finset.univ.filter fun j => status' j = 0).card + 1 =
      (Finset.univ.filter fun j => status j = 0).card := by
  have herase : (Finset.univ.filter fun j => status' j = 0) =
      (Finset.univ.filter fun j => status j = 0).erase i := by
    ext j
    simp only [Finset.mem_filter, Finset.mem_univ, true_and, Finset.mem_erase]
    by_cases hj : j = i
    · rw [hj]
      exact iff_of_false hself fun h => h.1 rfl
    · rw [hother j hj]
      exact (and_iff_right hj).symm
  rw [herase]
  exact Finset.card_erase_add_one (Finset.mem_filter.mpr ⟨Finset.mem_univ _, hfree⟩)

/-- Taking a free entry. -/
theorem freeSlots_take {s' : System} {index : Fin MAX_TASK_COUNT}
    (hfree : (s.taskTable index).status = 0) (hself : (s'.taskTable index).status ≠ 0)
    (hother : ∀ i, i ≠ index → (s'.taskTable i).status = (s.taskTable i).status) :
    freeSlots s' + 1 = freeSlots s := card_take hfree hself hother

end Slots

section Launching

variable {disk : Memory} {stale : ℕ} {s s' : System} {l : Launch}

/-- One launch, with the system it leaves. -/
def launch (disk : Memory) (stale : ℕ) (s : System) (l : Launch) : Except Fault System := do
  let (_, s) ← exec disk stale l.taskSwitch s l.filename
  .ok s

/-- The launch returns TASK_SUCCESS. -/
def Succeeds (disk : Memory) (stale : ℕ) (s : System) (l : Launch) : Prop :=
  ∃ s', exec disk stale l.taskSwitch s l.filename = .ok (TASK_SUCCESS, s')

/-- As many entries are free after the launch as before. -/
def Reclaims (disk : Memory) (stale : ℕ) (s : System) (l : Launch) : Prop :=
  ∀ ret s', exec disk stale l.taskSwitch s l.filename = .ok (ret, s') → freeSlots s' = freeSlots s

/-- A program that fits is loaded without leaving the entry of its task. -/
theorem loadProgram_returns {k : Kernel} {fd : Fin FILE_DESCRIPTOR_TAB_SIZE} {slot : ℕ}
    (h : OpenAt k fd slot) (disk : Memory) (stale : ℕ) (task : TaskEntry) {size : ℕ}
    (hsize : size ≤ addrSpaceSize) : ∃ task', loadProgram disk stale k fd task size = .ok task' ∧
      task'.status = task.status ∧ task'.tssSelector = task.tssSelector := by
  obtain ⟨buf, hread⟩ := h.read disk stale (entryBytes task) size
  have hfits : SECTOR_SIZE * (size / SECTOR_SIZE + 2) ≤ addrSpaceSize + kernelStackSize := by
    simp only [SECTOR_SIZE, addrSpaceSize, kernelStackSize] at hsize ⊢
    omega
  refine ⟨{ task with taskAddrSpace := buf, taskKernelStack := advance buf addrSpaceSize }, ?_, rfl,
    rfl⟩
  rw [loadProgram, if_pos hfits, hread, ok_bind]

/-- file_read looks for the status of descriptor -1 beyond the table. -/
theorem loadProgram_refused (disk : Memory) (stale : ℕ) (k : Kernel) (task : TaskEntry)
    (size : ℕ) : loadProgram disk stale k (-1) task size = .error .undefined := by
  rw [loadProgram]
  split
  · rfl
  · rfl

/-- A launch takes the first free entry, closes its descriptor and runs the program. -/
theorem exec_free (hready : Ready s l) (disk : Memory) (stale : ℕ) (hfree : 0 < freeSlots s) :
    ∃ (index : Fin MAX_TASK_COUNT) (task : TaskEntry) (fd : Fin FILE_DESCRIPTOR_TAB_SIZE)
      (entry : FileOpen),
      (s.taskTable index).status = 0 ∧ task.status = 1 ∧ entry.status = 0 ∧
      exec disk stale l.taskSwitch s l.filename = .ok (TASK_SUCCESS, l.taskSwitch task.tssSelector
        { kernel := s.kernel.setDescriptor fd entry
          taskTable := Function.update s.taskTable index task }) := by
  obtain ⟨stat, hstat, hpos, hfits⟩ := hready.file
  obtain ⟨fd, slot, hopen⟩ := fileOpen_of_fileStat hstat hready.descriptor
  obtain ⟨i, slot', hi, hat⟩ := openAt_of_fileOpen hopen (by omega)
  have hfd : fd = i := Fin.ext (by omega)
  subst hfd
  cases hsearch : searchLoop s.taskTable (List.finRange MAX_TASK_COUNT) with
  | none =>
    rw [freeSlots_eq_zero_iff.mpr hsearch] at hfree
    exact absurd hfree (Nat.lt_irrefl 0)
  | some index =>
    have hsize : uintOfInt stat.size ≤ addrSpaceSize := by
      rw [← Int.toNat_of_nonneg hpos,
        uintOfInt_natCast (by simp only [addrSpaceSize] at hfits; omega)]
      omega
    obtain ⟨task, hload, hstatus, hselector⟩ := loadProgram_returns hat disk stale
      { s.taskTable index with status := 1 } hsize
    refine ⟨index, task, fd, ⟨some slot, 0, 0⟩, searchLoop_some hsearch, hstatus, rfl, ?_⟩
    simp only [exec, hstat, ok_bind, hopen, hsearch, hload, fileClose_setDescriptor]

/-- With every entry taken a launch fails and leaves the table as it is. -/
theorem exec_full (hready : Ready s l) (disk : Memory) (stale : ℕ) (hfull : freeSlots s = 0) :
    ∃ s', exec disk stale l.taskSwitch s l.filename = .ok (TASK_FAILURE, s') ∧
      s'.taskTable = s.taskTable := by
  obtain ⟨stat, hstat, -, -⟩ := hready.file
  obtain ⟨fd, slot, hopen⟩ := fileOpen_of_fileStat hstat hready.descriptor
  refine ⟨{ s with kernel := s.kernel.setDescriptor fd ⟨some slot, 1, 0⟩ }, ?_, rfl⟩
  simp only [exec, hstat, ok_bind, hopen, freeSlots_eq_zero_iff.mp hfull]

/-- A launch with a free entry succeeds and takes it for good. -/
theorem launch_free (hready : Ready s l) (disk : Memory) (stale : ℕ) (hfree : 0 < freeSlots s) :
    ∃ s', exec disk stale l.taskSwitch s l.filename = .ok (TASK_SUCCESS, s') ∧
      freeSlots s' + 1 = freeSlots s := by
  obtain ⟨index, task, fd, entry, hindex, htask, -, hexec⟩ := exec_free hready disk stale hfree
  refine ⟨_, hexec, freeSlots_take hindex ?_ fun i hi => ?_⟩
  · rw [l.keeps]
    dsimp only
    rw [Function.update_self, htask]
    decide
  · rw [l.keeps]
    dsimp only
    rw [Function.update_of_ne hi]

/-- Without a free descriptor nothing can be loaded. -/
theorem Fits.descriptorFree (hfits : Fits s l) (h : Succeeds disk stale s l) :
    DescriptorFree s := by
  obtain ⟨stat, hstat, -, -⟩ := hfits
  obtain ⟨s', hexec⟩ := h
  by_contra hnone
  have hopen : fileOpen s.kernel l.filename = .ok (-1, s.kernel) :=
    fileOpen_of_used hstat fun fd hfd => hnone ⟨fd, hfd⟩
  simp only [exec, hstat, ok_bind, hopen] at hexec
  cases hsearch : searchLoop s.taskTable (List.finRange MAX_TASK_COUNT) with
  | none =>
    rw [hsearch] at hexec
    have hret : TASK_FAILURE = TASK_SUCCESS := congrArg Prod.fst (Except.ok.inj hexec)
    exact absurd hret (by decide)
  | some index =>
    rw [hsearch] at hexec
    simp only [loadProgram_refused] at hexec
    cases hexec

theorem not_succeeds_full (hready : Ready s l) (hfull : freeSlots s = 0) :
    ¬ Succeeds disk stale s l := by
  obtain ⟨s₁, hexec, -⟩ := exec_full hready disk stale hfull
  intro h
  obtain ⟨s₂, hexec'⟩ := h
  rw [hexec'] at hexec
  have hret : TASK_SUCCESS = TASK_FAILURE := congrArg Prod.fst (Except.ok.inj hexec)
  exact absurd hret (by decide)

/-- No launch both succeeds and gives its entry back. -/
theorem not_reclaims (hready : Ready s l) (h : Succeeds disk stale s l) :
    ¬ Reclaims disk stale s l := by
  intro hreclaims
  by_cases hfull : freeSlots s = 0
  · exact not_succeeds_full hready hfull h
  · obtain ⟨s', hexec, hspent⟩ := launch_free hready disk stale (Nat.pos_of_ne_zero hfull)
    have hsame := hreclaims _ _ hexec
    omega

/-- As many launches succeed as there are free entries. -/
theorem succeed_iff {launches : List Launch} (hready : Each (launch disk stale) Ready s launches) :
    Each (launch disk stale) (Succeeds disk stale) s launches ↔
      launches.length ≤ freeSlots s := by
  apply each_iff_length_le ?_ ?_ hready
  · intro s l hl hfree
    obtain ⟨s', hexec, hspent⟩ := launch_free hl disk stale hfree
    refine ⟨⟨s', hexec⟩, s', ?_, hspent⟩
    rw [launch, hexec, ok_bind]
  · intro s l hl hfull
    exact not_succeeds_full hl hfull

end Launching

/-- The launches succeed as long as an entry and a descriptor are free, and none gives its
entry back. -/
theorem launches_iff {disk : Memory} {stale : ℕ} {s : System} {launches : List Launch}
    (hfits : Each (launch disk stale) Fits s launches) :
    (Each (launch disk stale) (Succeeds disk stale) s launches ↔
      launches.length ≤ freeSlots s ∧
        Each (launch disk stale) (fun s _ => DescriptorFree s) s launches) ∧
    (Each (launch disk stale) (fun s l => Succeeds disk stale s l ∧ Reclaims disk stale s l) s
      launches ↔ launches = []) := by
  have hready : Each (launch disk stale) (fun s _ => DescriptorFree s) s launches →
      Each (launch disk stale) Ready s launches := fun hfree =>
    (hfits.and hfree).mono fun _ _ h => ⟨h.1, h.2⟩
  refine ⟨⟨fun h => ?_, fun h => (succeed_iff (hready h.2)).mpr h.1⟩, ?_⟩
  · have hfree : Each (launch disk stale) (fun s _ => DescriptorFree s) s launches :=
      (hfits.and h).mono fun _ _ hboth => hboth.1.descriptorFree hboth.2
    exact ⟨(succeed_iff (hready hfree)).mp h, hfree⟩
  · cases launches with
    | nil => exact iff_of_true trivial rfl
    | cons l rest =>
      refine iff_of_false (fun h => ?_) (List.cons_ne_nil _ _)
      rcases h with ⟨⟨hsucceeds, hreclaims⟩, -⟩
      exact not_reclaims ⟨hfits.1, hfits.1.descriptorFree hsucceeds⟩ hsucceeds hreclaims

section Examples

open AddedFiles FileRemoval TaskSegments

/-- The system at the start, with the large image mounted. -/
def bootSystem : System where
  kernel := largeKernel
  taskTable := (taskSetup examplePlacement zeroTables).taskTable

/-- Running the file of the large image, by a program that changes nothing. -/
def idleLaunch : Launch where
  filename := nameOf 97
  taskSwitch := fun _ s => s
  keeps := fun _ _ _ => rfl

theorem bootSystem_freeSlots : freeSlots bootSystem = 10 := by
  have hstatus : ∀ i, (bootSystem.taskTable i).status = 0 := by
    intro i
    change ((taskSetup examplePlacement zeroTables).taskTable i).status = 0
    rw [taskSetup_taskTable]
    rfl
  rw [freeSlots, Finset.filter_true_of_mem fun i _ => hstatus i]
  decide

theorem bootSystem_ready : Ready bootSystem idleLaunch where
  file := by
    have hstat : (fileStat largeKernel (nameOf 97)).map (fun stat => stat.map fun s => s.size) =
        .ok (some 2560) := by
      decide +kernel
    cases hfile : fileStat largeKernel (nameOf 97) with
    | error e =>
      rw [hfile] at hstat
      cases hstat
    | ok stat =>
      rw [hfile] at hstat
      obtain ⟨s, rfl, hsize⟩ := Option.map_eq_some_iff.mp (Except.ok.inj hstat)
      exact ⟨s, hfile, by omega, by simp only [addrSpaceSize]; omega⟩
  descriptor := ⟨0, rfl⟩

/-- The idle program can be launched again as long as an entry is free, and once more. -/
theorem idleLaunch_ready (disk : Memory) (stale : ℕ) (n : ℕ) {s : System}
    (hready : Ready s idleLaunch) (hn : n ≤ freeSlots s + 1) :
    Each (launch disk stale) Ready s (List.replicate n idleLaunch) := by
  induction n generalizing s with
  | zero => exact trivial
  | succ n ih =>
    refine ⟨hready, fun s' hs' => ?_⟩
    by_cases hfull : freeSlots s = 0
    · have hzero : n = 0 := by omega
      rw [hzero]
      exact trivial
    · obtain ⟨s₁, hexec, hspent⟩ :=
        launch_free hready disk stale (Nat.pos_of_ne_zero hfull)
      obtain ⟨index, task, fd, entry, -, -, hentry, hexec'⟩ :=
        exec_free hready disk stale (Nat.pos_of_ne_zero hfull)
      rw [launch, hexec, ok_bind] at hs'
      cases hs'
      rw [hexec'] at hexec
      cases hexec
      exact ih ⟨hready.file, fd, by dsimp only [idleLaunch]; rw [setDescriptor_self, hentry]⟩
        (by omega)

/-- Ten launches succeed. -/
theorem launches_iff_ten : Each (launch largeImage.bytes 0)
    (Succeeds largeImage.bytes 0) bootSystem (List.replicate 10 idleLaunch) := by
  have hfree := bootSystem_freeSlots
  have hready := idleLaunch_ready largeImage.bytes 0 10 bootSystem_ready (by omega)
  refine (launches_iff (hready.mono fun _ _ h => h.file)).1.mpr ⟨?_, ?_⟩
  · rw [List.length_replicate]
    omega
  · exact hready.mono fun _ _ h => h.descriptor

/-- Not all of eleven launches succeed, and the first does not give its entry back. -/
theorem launches_eleven :
    Each (launch largeImage.bytes 0) Fits bootSystem (List.replicate 11 idleLaunch) ∧
      ¬ Each (launch largeImage.bytes 0) (Succeeds largeImage.bytes 0)
        bootSystem (List.replicate 11 idleLaunch) ∧
      ¬ Reclaims largeImage.bytes 0 bootSystem idleLaunch := by
  have hfree := bootSystem_freeSlots
  have hready := idleLaunch_ready largeImage.bytes 0 11 bootSystem_ready (by omega)
  obtain ⟨s', hexec, -⟩ := launch_free bootSystem_ready largeImage.bytes 0 (by omega)
  refine ⟨hready.mono fun _ _ h => h.file, fun h => ?_,
    not_reclaims bootSystem_ready ⟨s', hexec⟩⟩
  have hle := (succeed_iff hready).mp h
  rw [List.length_replicate] at hle
  omega

end Examples

end RathalOS.Launches
