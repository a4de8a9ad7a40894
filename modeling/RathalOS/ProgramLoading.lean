import RathalOS.Admission
import RathalOS.BadDescriptors
import RathalOS.FailedLaunches
import RathalOS.ReadOverruns

/-!
Loading a program, exec of kernel/task/task.c up to the task switch. The file is read into
the address space of the entry, of 16834 bytes, and nothing looks at its size. file_read
writes up to two sectors more than the file fills, so that already a file of 15872 bytes
reaches into the kernel stack behind the address space.
-/
namespace RathalOS.ProgramLoading

open ByteMemory Inodes KernelFiles KernelReads Cursors Syscalls Tasks Launches
open BadDescriptors FailedLaunches ReadOverruns

/-- The entry that exec takes. -/
def chosen (s : System) : Option (Fin MAX_TASK_COUNT) :=
  searchLoop s.taskTable (List.finRange MAX_TASK_COUNT)

/-- `loadProgram` with the accesses of file_read, whose positions are counted from the start of
the address space. -/
def loadProgramLog (disk : Memory) (stale : ℕ) (k : Kernel) (fd : ℤ) (task : TaskEntry)
    (size : ℕ) : Except Fault (TaskEntry × List Access) :=
  if SECTOR_SIZE * (size / SECTOR_SIZE + 2) ≤ addrSpaceSize + kernelStackSize then do
    let (_, buf, accesses) ← fileReadLog k disk stale fd (entryBytes task) size
    .ok ({ task with
      taskAddrSpace := buf
      taskKernelStack := advance buf addrSpaceSize }, accesses)
  else .error .undefined

/-- `exec` with these accesses. -/
def execLoadLog (disk : Memory) (stale : ℕ) (taskSwitch : BitVec 16 → System → System)
    (s : System) (filename : Memory) : Except Fault (ℤ × System × List Access) := do
  let stats ← fileStat s.kernel filename
  match stats with
  | none => .ok (TASK_FAILURE, s, [])
  | some stats => do
    let (fd, k) ← fileOpen s.kernel filename
    match chosen s with
    | none => .ok (TASK_FAILURE, { s with kernel := k }, [])
    | some index => do
      let task := { s.taskTable index with status := 1 }
      let (task, accesses) ← loadProgramLog disk stale k fd task (uintOfInt stats.size)
      let k ← fileClose k fd
      let s : System := { kernel := k, taskTable := Function.update s.taskTable index task }
      .ok (TASK_SUCCESS, taskSwitch task.tssSelector s, accesses)

/-- Up to the task switch exec leaves the task table as it is but for the bytes of the address
space and the status of the entry it takes, and refuses files that are larger than the address
space. A byte that is stored may be the one that was there. -/
structure KeepsInside (s : System) (filename : Memory) (ret : ℤ) (s' : System) : Prop where
  others : ∀ i, chosen s ≠ some i → s'.taskTable i = s.taskTable i
  entry : ∀ i, chosen s = some i → ∃ bytes status,
    s'.taskTable i = { s.taskTable i with taskAddrSpace := bytes, status := status }
  refused : ∀ stat, fileStat s.kernel filename = .ok (some stat) →
    addrSpaceSize < uintOfInt stat.size → ret = TASK_FAILURE

/-- Neither does it store anything behind the address space. -/
structure LoadsInside (s : System) (filename : Memory) (ret : ℤ) (s' : System)
    (accesses : List Access) : Prop extends KeepsInside s filename ret s' where
  stores : ∀ a ∈ accesses, a.position + SECTOR_SIZE ≤ addrSpaceSize

/-- A descriptor is free, the file fits the address space, and behind it the kernel stack of
the entry holds what file_read copies there. -/
structure Loadable (disk : Memory) (s : System) (stat : Stat) : Prop where
  descriptor : DescriptorFree s
  fits : uintOfInt stat.size ≤ addrSpaceSize
  stack : ∀ i, chosen s = some i →
    HoldsFrom addrSpaceSize disk (intOfUint s.kernel.superblock.datablocksStart)
      (s.kernel.inodeTable.inode stat.inode) (entryBytes (s.taskTable i)) (uintOfInt stat.size)

/-- The bytes of an entry from the address space on, after a file was read. -/
def loadedBytes (disk : Memory) (stale : ℕ) (k : Kernel) (stat : Stat) (task : TaskEntry) :
    Memory :=
  leftByte disk stale (intOfUint k.superblock.datablocksStart) (k.inodeTable.inode stat.inode)
    (entryBytes task) (uintOfInt stat.size)

/-- An entry that a file was loaded into. -/
def loadedEntry (disk : Memory) (stale : ℕ) (k : Kernel) (stat : Stat) (task : TaskEntry) :
    TaskEntry :=
  { task with
    status := 1
    taskAddrSpace := loadedBytes disk stale k stat task
    taskKernelStack := advance (loadedBytes disk stale k stat task) addrSpaceSize }

section Loading

variable {disk : Memory} {stale : ℕ} {s : System} {filename : Memory} {stat : Stat}

theorem freeSlots_of_chosen {i : Fin MAX_TASK_COUNT} (hi : chosen s = some i) :
    freeSlots s ≠ 0 := by
  intro hzero
  rw [chosen, freeSlots_eq_zero_iff.mp hzero] at hi
  cases hi

/-- file_stat has found the slot that file_open finds. -/
theorem find_of_stat {k : Kernel} (h : fileStat k filename = .ok (some stat)) :
    stat.inode < k.inodeTable.slots ∧ ∃ slotsRead,
      inodeGetFromFilename k.inodeTable filename = .ok (some stat.inode, slotsRead) := by
  obtain ⟨slot, slotsRead, hfind, hexists⟩ := find_of_fileStat h
  have hslot := (findInode_some hfind).2.1
  rw [fileStat, hexists, ok_bind, if_pos rfl, hfind, ok_bind] at h
  simp only [inodeGet, if_pos hslot, ok_bind] at h
  cases h
  exact ⟨hslot, slotsRead, hfind⟩

/-- The descriptor that file_open takes is open on the file of file_stat. -/
theorem fileOpen_of_stat (h : fileStat s.kernel filename = .ok (some stat))
    (hfree : DescriptorFree s) : ∃ fd : Fin FILE_DESCRIPTOR_TAB_SIZE,
      fileOpen s.kernel filename =
        .ok ((fd : ℕ), s.kernel.setDescriptor fd ⟨some stat.inode, 1, 0⟩) := by
  obtain ⟨hslot, slotsRead, hfind⟩ := find_of_stat h
  obtain ⟨fd, slot, hopen⟩ := fileOpen_of_fileStat h hfree
  obtain ⟨i, slot', slotsRead', -, hfind', hi, hk⟩ := fileOpen_eq hopen (by omega)
  have hfd : fd = i := Fin.ext (by omega)
  rw [hfind] at hfind'
  cases hfind'
  subst hfd
  exact ⟨fd, by rw [hopen, hk]⟩

theorem loadProgramLog_erase (disk : Memory) (stale : ℕ) (k : Kernel) (fd : ℤ) (task : TaskEntry)
    (size : ℕ) : (loadProgramLog disk stale k fd task size).map Prod.fst =
      loadProgram disk stale k fd task size := by
  unfold loadProgramLog loadProgram
  split
  · exact map_bind_of_map (fileReadLog_erase k disk stale fd (entryBytes task) size) fun _ => rfl
  · rfl

/-- Without the accesses, `execLoadLog` is exec. -/
theorem execLoadLog_erase (disk : Memory) (stale : ℕ) (taskSwitch : BitVec 16 → System → System)
    (s : System) (filename : Memory) :
    (execLoadLog disk stale taskSwitch s filename).map (fun r => (r.1, r.2.1)) =
      exec disk stale taskSwitch s filename := by
  refine map_bind_eq fun stats => ?_
  cases stats with
  | none => rfl
  | some stats =>
    refine map_bind_eq fun r => ?_
    change Except.map _ (match chosen s with
      | none => _
      | some index => _) = match chosen s with
      | none => _
      | some index => _
    cases chosen s with
    | none => rfl
    | some index =>
      exact map_bind_of_map (loadProgramLog_erase _ _ _ _ _ _) fun r => map_bind_eq fun k => rfl

theorem exec_of_log {taskSwitch : BitVec 16 → System → System} {ret : ℤ} {s' : System}
    {accesses : List Access}
    (h : execLoadLog disk stale taskSwitch s filename = .ok (ret, s', accesses)) :
    exec disk stale taskSwitch s filename = .ok (ret, s') := by
  rw [← execLoadLog_erase, h]
  rfl

/-- A file whose sectors fit the entry is loaded, and the sectors are stored one after the
other. -/
theorem execLoadLog_loads (hstat : fileStat s.kernel filename = .ok (some stat))
    (hfree : DescriptorFree s) {i : Fin MAX_TASK_COUNT} (hi : chosen s = some i)
    (hroom : SECTOR_SIZE * (uintOfInt stat.size / SECTOR_SIZE + 2) ≤
      addrSpaceSize + kernelStackSize) (disk : Memory) (stale : ℕ) :
    ∃ k accesses, execLoadLog disk stale (fun _ s => s) s filename = .ok (TASK_SUCCESS, {
      kernel := k
      taskTable := Function.update s.taskTable i
        (loadedEntry disk stale s.kernel stat (s.taskTable i)) }, accesses) ∧
      accesses.map Access.position = positions (uintOfInt stat.size) := by
  obtain ⟨fd, hopen⟩ := fileOpen_of_stat hstat hfree
  have hat : OpenAt (s.kernel.setDescriptor fd ⟨some stat.inode, 1, 0⟩) fd stat.inode :=
    openAt_setDescriptor fd (find_of_stat hstat).1
  obtain ⟨accesses, hread, hpositions, -⟩ := fileReadLog_spec hat disk stale
    (entryBytes { s.taskTable i with status := 1 }) (uintOfInt stat.size)
  have hload : loadProgramLog disk stale (s.kernel.setDescriptor fd ⟨some stat.inode, 1, 0⟩) fd
      { s.taskTable i with status := 1 } (uintOfInt stat.size) =
        .ok (loadedEntry disk stale s.kernel stat (s.taskTable i), accesses) := by
    rw [loadProgramLog, if_pos hroom, hread, ok_bind]
    rfl
  refine ⟨s.kernel.setDescriptor fd ⟨some stat.inode, 0, 0⟩, accesses, ?_, hpositions⟩
  simp only [execLoadLog, hstat, ok_bind, hopen, hi, hload, fileClose_setDescriptor]

theorem exec_loads (hstat : fileStat s.kernel filename = .ok (some stat))
    (hfree : DescriptorFree s) {i : Fin MAX_TASK_COUNT} (hi : chosen s = some i)
    (hroom : SECTOR_SIZE * (uintOfInt stat.size / SECTOR_SIZE + 2) ≤
      addrSpaceSize + kernelStackSize) (disk : Memory) (stale : ℕ) :
    ∃ k, exec disk stale (fun _ s => s) s filename = .ok (TASK_SUCCESS, {
      kernel := k
      taskTable := Function.update s.taskTable i
        (loadedEntry disk stale s.kernel stat (s.taskTable i)) }) := by
  obtain ⟨k, accesses, hlog, -⟩ := execLoadLog_loads hstat hfree hi hroom disk stale
  exact ⟨k, exec_of_log hlog⟩

/-- Where no entry is free, nothing is loaded. -/
theorem execLoadLog_unloaded (hi : chosen s = none) (disk : Memory) (stale : ℕ)
    (taskSwitch : BitVec 16 → System → System) (filename : Memory) :
    execLoadLog disk stale taskSwitch s filename =
      (exec disk stale taskSwitch s filename).map fun r => (r.1, r.2, []) := by
  have hsearch : searchLoop s.taskTable (List.finRange MAX_TASK_COUNT) = none := hi
  refine (map_bind_eq fun stats => ?_).symm
  cases stats with
  | none => rfl
  | some stats =>
    refine map_bind_eq fun r => ?_
    simp only [hi, hsearch]
    rfl

theorem entryBytes_stack (task : TaskEntry) (t : ℕ) :
    entryBytes task (addrSpaceSize + t) = task.taskKernelStack t := by
  rw [entryBytes, if_neg (by omega), Nat.add_sub_cancel_left]

theorem loadedEntry_stack (disk : Memory) (stale : ℕ) (k : Kernel) (stat : Stat)
    (task : TaskEntry) (t : ℕ) : (loadedEntry disk stale k stat task).taskKernelStack t =
      loadedBytes disk stale k stat task (addrSpaceSize + t) := by
  simp only [loadedEntry, advance_apply]

/-- A file whose sectors reach beyond the kernel stack. -/
theorem exec_overflows (hstat : fileStat s.kernel filename = .ok (some stat))
    {i : Fin MAX_TASK_COUNT} (hi : chosen s = some i)
    (hroom : ¬ SECTOR_SIZE * (uintOfInt stat.size / SECTOR_SIZE + 2) ≤
      addrSpaceSize + kernelStackSize) (taskSwitch : BitVec 16 → System → System) {ret : ℤ}
    {s' : System} : exec disk stale taskSwitch s filename ≠ .ok (ret, s') := by
  intro hexec
  rw [exec, hstat, ok_bind] at hexec
  obtain ⟨⟨fd, k⟩, -, hexec⟩ := bind_eq_ok hexec
  rw [chosen] at hi
  simp only [hi, loadProgram, if_neg hroom] at hexec
  cases hexec

/-- Loading keeps the kernel stack exactly if the stack holds what is copied there. A file of
less than 15872 bytes does not reach it. -/
theorem stack_kept_iff (disk : Memory) (stale : ℕ) (k : Kernel) (stat : Stat)
    (task : TaskEntry) :
    (loadedEntry disk stale k stat task).taskKernelStack = task.taskKernelStack ↔
      HoldsFrom addrSpaceSize disk (intOfUint k.superblock.datablocksStart)
        (k.inodeTable.inode stat.inode) (entryBytes task) (uintOfInt stat.size) := by
  have hsize : addrSpaceSize = 16834 := rfl
  by_cases hlow : uintOfInt stat.size < 2048
  · refine iff_of_true (funext fun t => ?_) ⟨fun x hx hlt => ?_, fun x hx _ hlt => ?_⟩
    · rw [loadedEntry_stack, loadedBytes, leftByte_far _ _ _ _ _ (by omega), entryBytes_stack]
    · omega
    · omega
  · rw [holdsFrom_iff _ _ stale _ _ _ (Nat.not_lt.mp hlow)]
    constructor
    · intro hkept x hx _
      have hbyte := congrFun hkept (x - addrSpaceSize)
      rw [loadedEntry_stack, ← entryBytes_stack task, Nat.add_sub_cancel' hx] at hbyte
      exact hbyte
    · intro hholds
      funext t
      rw [loadedEntry_stack, ← entryBytes_stack task]
      by_cases hfar : 512 * (uintOfInt stat.size / 512 + 2) ≤ addrSpaceSize + t
      · exact leftByte_far _ _ _ _ _ hfar
      · exact hholds _ (Nat.le_add_right _ t) (Nat.not_le.mp hfar)

/-- A file that was loaded stayed inside exactly if it fits and the kernel stack was kept. -/
theorem keepsInside_loaded_iff (hstat : fileStat s.kernel filename = .ok (some stat))
    {i : Fin MAX_TASK_COUNT} (hi : chosen s = some i) {k : Kernel} :
    KeepsInside s filename TASK_SUCCESS (System.mk k (Function.update s.taskTable i
        (loadedEntry disk stale s.kernel stat (s.taskTable i)))) ↔
      uintOfInt stat.size ≤ addrSpaceSize ∧
        (loadedEntry disk stale s.kernel stat (s.taskTable i)).taskKernelStack =
          (s.taskTable i).taskKernelStack := by
  constructor
  · intro h
    refine ⟨?_, ?_⟩
    · by_contra hlarge
      have hret : TASK_SUCCESS = TASK_FAILURE := h.refused stat hstat (Nat.not_le.mp hlarge)
      exact absurd hret (by decide)
    · obtain ⟨bytes, status, hentry⟩ := h.entry i hi
      dsimp only at hentry
      rw [Function.update_self] at hentry
      rw [hentry]
  · rintro ⟨hfits, hstack⟩
    refine ⟨fun j hj => ?_, fun j hj => ?_, fun stat' hstat' hlarge => ?_⟩
    · have hne : j ≠ i := fun heq => hj (by rw [heq, hi])
      exact Function.update_of_ne hne _ _
    · rw [hi] at hj
      cases hj
      refine ⟨loadedBytes disk stale s.kernel stat (s.taskTable i), 1,
        (Function.update_self _ _ _).trans ?_⟩
      dsimp only
      rw [← hstack]
      rfl
    · rw [hstat] at hstat'
      cases hstat'
      omega

/-- Without a free entry exec fails and leaves the table as it is. -/
theorem crowded_inside (h : Crowded s filename) (disk : Memory) (stale : ℕ) : ∃ s',
    exec disk stale (fun _ s => s) s filename = .ok (TASK_FAILURE, s') ∧
      KeepsInside s filename TASK_FAILURE s' := by
  obtain ⟨fd, k, consulted, -, hlog, -⟩ := execLog_crowded h disk stale fun _ s => s
  have hnone : chosen s = none := freeSlots_eq_zero_iff.mp h.full
  refine ⟨{ s with kernel := k }, ?_, fun i _ => rfl, fun i hi => ?_, fun _ _ _ => rfl⟩
  · rw [← execLog_erase, hlog]
    rfl
  · rw [hnone] at hi
    cases hi

/-- A file that was loaded inside could be loaded. -/
theorem loadable_of_inside (hstat : fileStat s.kernel filename = .ok (some stat))
    {i : Fin MAX_TASK_COUNT} (hi : chosen s = some i) {ret : ℤ} {s' : System}
    (hexec : exec disk stale (fun _ s => s) s filename = .ok (ret, s'))
    (hinside : KeepsInside s filename ret s') : Loadable disk s stat := by
  have hslots := Nat.pos_of_ne_zero (freeSlots_of_chosen hi)
  have hfree : DescriptorFree s := by
    by_contra hnone
    rw [exec_undefined hstat (fun fd hfd => hnone ⟨fd, hfd⟩) hslots] at hexec
    cases hexec
  have hroom : SECTOR_SIZE * (uintOfInt stat.size / SECTOR_SIZE + 2) ≤
      addrSpaceSize + kernelStackSize := by
    by_contra hlarge
    exact exec_overflows hstat hi hlarge _ hexec
  obtain ⟨k, hloads⟩ := exec_loads hstat hfree hi hroom disk stale
  rw [hloads] at hexec
  cases hexec
  obtain ⟨hfits, hstack⟩ := (keepsInside_loaded_iff hstat hi).mp hinside
  refine ⟨hfree, hfits, fun j hj => ?_⟩
  rw [hi] at hj
  cases hj
  exact (stack_kept_iff disk stale s.kernel stat _).mp hstack

/-- A file that fits the address space does not reach behind the kernel stack. -/
theorem Loadable.room (h : Loadable disk s stat) :
    SECTOR_SIZE * (uintOfInt stat.size / SECTOR_SIZE + 2) ≤ addrSpaceSize + kernelStackSize := by
  have hfits := h.fits
  simp only [SECTOR_SIZE, addrSpaceSize, kernelStackSize] at hfits ⊢
  omega

/-- A file that can be loaded is loaded inside. -/
theorem Loadable.inside (h : Loadable disk s stat)
    (hstat : fileStat s.kernel filename = .ok (some stat)) {i : Fin MAX_TASK_COUNT}
    (hi : chosen s = some i) (stale : ℕ) : ∃ s',
      exec disk stale (fun _ s => s) s filename = .ok (TASK_SUCCESS, s') ∧
        KeepsInside s filename TASK_SUCCESS s' := by
  obtain ⟨k, hloads⟩ := exec_loads hstat h.descriptor hi h.room disk stale
  refine ⟨_, hloads, (keepsInside_loaded_iff hstat hi).mpr ⟨h.fits, ?_⟩⟩
  exact (stack_kept_iff disk stale s.kernel stat _).mpr (h.stack i hi)

/-- Up to the task switch the bytes outside the address space of the entry that is taken stay
as they were exactly if there is no such file, no entry is free, or the file can be loaded. -/
theorem keepsInside_iff (disk : Memory) (stale : ℕ) (s : System) (filename : Memory) :
    (∃ ret s', exec disk stale (fun _ s => s) s filename = .ok (ret, s') ∧
      KeepsInside s filename ret s') ↔
    fileStat s.kernel filename = .ok none ∨
      ∃ stat, fileStat s.kernel filename = .ok (some stat) ∧
        (freeSlots s = 0 ∨ Loadable disk s stat) := by
  constructor
  · intro h
    obtain ⟨ret, s', hexec, hinside⟩ := h
    obtain ⟨stats, hstat, -⟩ := bind_eq_ok hexec
    cases stats with
    | none => exact Or.inl hstat
    | some stat =>
      refine Or.inr ⟨stat, hstat, ?_⟩
      cases hi : chosen s with
      | none => exact Or.inl (freeSlots_eq_zero_iff.mpr hi)
      | some i => exact Or.inr (loadable_of_inside hstat hi hexec hinside)
  · intro h
    rcases h with hstat | ⟨stat, hstat, hor⟩
    · refine ⟨TASK_FAILURE, s, by rw [exec, hstat, ok_bind], fun i _ => rfl,
        fun i _ => ⟨_, _, rfl⟩, fun _ _ _ => rfl⟩
    · cases hi : chosen s with
      | none =>
        obtain ⟨s', hexec, hinside⟩ :=
          crowded_inside ⟨⟨stat, hstat⟩, freeSlots_eq_zero_iff.mpr hi⟩ disk stale
        exact ⟨TASK_FAILURE, s', hexec, hinside⟩
      | some i =>
        obtain ⟨s', hexec, hinside⟩ :=
          (hor.resolve_left (freeSlots_of_chosen hi)).inside hstat hi stale
        exact ⟨TASK_SUCCESS, s', hexec, hinside⟩

/-- A file of less than 15872 bytes does not reach the kernel stack. -/
theorem Loadable.of_size (hfree : DescriptorFree s) (hsize : uintOfInt stat.size < 15872)
    (disk : Memory) : Loadable disk s stat := by
  have haddr : addrSpaceSize = 16834 := rfl
  refine ⟨hfree, by omega, fun i _ => ⟨fun x hx hlt => ?_, fun x hx _ hlt => ?_⟩⟩
  · omega
  · omega

/-- The sectors of a file lie within the address space exactly if it has less than 15872
bytes. -/
theorem positions_inside_iff (size : ℕ) :
    (∀ position ∈ positions size, position + SECTOR_SIZE ≤ addrSpaceSize) ↔ size < 15872 := by
  have hsector : SECTOR_SIZE = 512 := rfl
  have haddr : addrSpaceSize = 16834 := rfl
  rw [positions_within_iff, hsector, haddr]
  omega

/-- A file that was loaded with every store inside is that small. -/
theorem size_lt_of_inside (hstat : fileStat s.kernel filename = .ok (some stat))
    (h : Loadable disk s stat) {i : Fin MAX_TASK_COUNT} (hi : chosen s = some i) {ret : ℤ}
    {s' : System} {accesses : List Access}
    (hlog : execLoadLog disk stale (fun _ s => s) s filename = .ok (ret, s', accesses))
    (hstores : ∀ a ∈ accesses, a.position + SECTOR_SIZE ≤ addrSpaceSize) :
    uintOfInt stat.size < 15872 := by
  obtain ⟨k, accesses', hloads, hpositions⟩ :=
    execLoadLog_loads hstat h.descriptor hi h.room disk stale
  rw [hlog] at hloads
  cases hloads
  rw [← positions_inside_iff, ← hpositions]
  exact List.forall_mem_map.mpr hstores

end Loading

/-- Up to the task switch exec stays inside the address space of the entry it takes exactly if
there is no such file, no entry is free, or a descriptor is free and the file has less than
15872 bytes. -/
theorem loadsInside_iff (disk : Memory) (stale : ℕ) (s : System) (filename : Memory) :
    (∃ ret s' accesses,
      execLoadLog disk stale (fun _ s => s) s filename = .ok (ret, s', accesses) ∧
      LoadsInside s filename ret s' accesses) ↔
    fileStat s.kernel filename = .ok none ∨
      ∃ stat, fileStat s.kernel filename = .ok (some stat) ∧
        (freeSlots s = 0 ∨ DescriptorFree s ∧ uintOfInt stat.size < 15872) := by
  constructor
  · intro h
    obtain ⟨ret, s', accesses, hlog, hinside⟩ := h
    have hkeeps := (keepsInside_iff disk stale s filename).mp
      ⟨ret, s', exec_of_log hlog, hinside.toKeepsInside⟩
    refine hkeeps.imp_right fun ⟨stat, hstat, hor⟩ => ⟨stat, hstat, ?_⟩
    cases hi : chosen s with
    | none => exact Or.inl (freeSlots_eq_zero_iff.mpr hi)
    | some i =>
      have hloadable := hor.resolve_left (freeSlots_of_chosen hi)
      exact Or.inr ⟨hloadable.descriptor,
        size_lt_of_inside hstat hloadable hi hlog hinside.stores⟩
  · intro h
    rcases h with hstat | ⟨stat, hstat, hor⟩
    · refine ⟨TASK_FAILURE, s, [], by rw [execLoadLog, hstat, ok_bind],
        ⟨fun i _ => rfl, fun i _ => ⟨_, _, rfl⟩, fun _ _ _ => rfl⟩, fun a ha => ?_⟩
      exact absurd ha List.not_mem_nil
    · cases hi : chosen s with
      | none =>
        obtain ⟨s', hexec, hkeeps⟩ :=
          crowded_inside ⟨⟨stat, hstat⟩, freeSlots_eq_zero_iff.mpr hi⟩ disk stale
        refine ⟨TASK_FAILURE, s', [], ?_, hkeeps, fun a ha => absurd ha List.not_mem_nil⟩
        rw [execLoadLog_unloaded hi, hexec]
        rfl
      | some i =>
        obtain ⟨hfree, hsize⟩ := hor.resolve_left (freeSlots_of_chosen hi)
        have hloadable := Loadable.of_size hfree hsize disk
        obtain ⟨s', hexec, hkeeps⟩ := hloadable.inside hstat hi stale
        obtain ⟨k, accesses, hlog, hpositions⟩ :=
          execLoadLog_loads hstat hfree hi hloadable.room disk stale
        have hs' := exec_of_log hlog
        rw [hexec] at hs'
        cases hs'
        refine ⟨TASK_SUCCESS, _, accesses, hlog, hkeeps, ?_⟩
        have hall := (positions_inside_iff _).mpr hsize
        rw [← hpositions, List.forall_mem_map] at hall
        exact hall

section Examples

open ByteFile Superblocks Images EmptyImages AddFile AddedFiles Admission Mounting

/-- What superblock_create computes for 512-byte blocks, 8 inodes and 64 data blocks. -/
def roomySuperblock : Superblock := { smallSuperblock with datablockCount := 64 }

/-- An image with a file `a` of 17000 bytes. -/
def hugeImage : File :=
  imageOf (addFile (fun _ => 0) (zeroFile 17000) (nameOf 97) 17000 (emptyImage roomySuperblock))

theorem roomyImage_wellFormed : WellFormed roomySuperblock (emptyImage roomySuperblock) := by
  have hl : Layout roomySuperblock := by constructor <;> decide
  have hs : Signed roomySuperblock := by constructor <;> decide
  exact emptyImage_wellFormed hl hs (by decide) (by decide)

theorem hugeImage_added : addFile (fun _ => 0) (zeroFile 17000) (nameOf 97) 17000
    (emptyImage roomySuperblock) = .ok (.added, hugeImage) := by
  have hadmits : Admits roomySuperblock (emptyImage roomySuperblock).bytes (nameOf 97) 17000 := by
    constructor
    case name =>
      intro i hi
      exact absurd hi ((emptyImage_empty roomyImage_wellFormed.layout).not_live i)
    case inode => exact ⟨1, by decide, by decide +kernel⟩
    case capacity => decide
    case room => decide +kernel
  obtain ⟨outcome, fs', log, -, hadd, hiff, -⟩ := addFile_succeeds_iff
    roomyImage_wellFormed.toConsistent (fun _ => 0) (nameOf 97) (zeroFile 17000)
    (by decide : 17000 < 2 ^ 31)
  rw [hiff.mpr hadmits] at hadd
  rw [hugeImage, hadd]
  rfl

/-- file_stat finds the file on the mounted image. -/
theorem hugeImage_stat : ∃ slot,
    fileStat (mounted hugeImage.bytes closedTab) (nameOf 97) = .ok (some ⟨17000, slot⟩) := by
  obtain ⟨hnone, hsize, i, data, tables, hadded⟩ :=
    added_of_addFile roomyImage_wellFormed.toConsistent (by decide) hugeImage_added
  have hw := hadded.wellFormed roomyImage_wellFormed hsize (by decide) hnone
  have hlive := (hadded.live_iff roomyImage_wellFormed.toConsistent i).mpr (Or.inr rfl)
  have hview := mounted_view hw.toConsistent (fun _ _ => rfl : DiskHolds hugeImage.bytes hugeImage)
    closedTab
  obtain ⟨slotsRead, hfind, -⟩ := inodeGetFromFilename_of_live hw (fun _ _ => rfl) hview rfl
    hlive.1 hlive hadded.name
  have hstat := (fileStat_of_found hfind (findInode_some hfind).2.1).2
  rw [hview.inode_eq hw.toConsistent (fun _ _ => rfl) rfl hlive.1 hlive.1, hadded.size] at hstat
  exact ⟨i, hstat⟩

/-- A system after another image was mounted. -/
def remount (s : System) (disk : Memory) : System := { s with kernel := mounted disk closedTab }

theorem remount_kernel (s : System) (disk : Memory) :
    (remount s disk).kernel = mounted disk closedTab := rfl

theorem remount_freeSlots (s : System) (disk : Memory) :
    freeSlots (remount s disk) = freeSlots s := rfl

theorem remount_descriptorFree (s : System) (disk : Memory) : DescriptorFree (remount s disk) :=
  ⟨0, rfl⟩

/-- The file of 17000 bytes is launched. -/
theorem loadsInside_huge : ∃ s' accesses,
    exec hugeImage.bytes 0 (fun _ s => s) (remount bootSystem hugeImage.bytes) (nameOf 97) =
        .ok (TASK_SUCCESS, s') ∧
      execLoadLog hugeImage.bytes 0 (fun _ s => s) (remount bootSystem hugeImage.bytes)
        (nameOf 97) = .ok (TASK_SUCCESS, s', accesses) ∧
      ¬ LoadsInside (remount bootSystem hugeImage.bytes) (nameOf 97) TASK_SUCCESS s' accesses := by
  obtain ⟨slot, hstat⟩ := hugeImage_stat
  rw [← remount_kernel bootSystem] at hstat
  have hslots : freeSlots (remount bootSystem hugeImage.bytes) = 10 := by
    rw [remount_freeSlots, bootSystem_freeSlots]
  have hroom : SECTOR_SIZE * (uintOfInt 17000 / SECTOR_SIZE + 2) ≤
      addrSpaceSize + kernelStackSize := by
    decide
  have hlarge : addrSpaceSize < uintOfInt 17000 := by decide
  cases hi : chosen (remount bootSystem hugeImage.bytes) with
  | none =>
    rw [freeSlots_eq_zero_iff.mpr hi] at hslots
    exact absurd hslots (by decide)
  | some i =>
    obtain ⟨k, accesses, hlog, -⟩ :=
      execLoadLog_loads hstat (remount_descriptorFree _ _) hi hroom hugeImage.bytes 0
    refine ⟨_, accesses, exec_of_log hlog, hlog, fun hinside => ?_⟩
    have hret : TASK_SUCCESS = TASK_FAILURE := hinside.refused ⟨17000, slot⟩ hstat hlarge
    exact absurd hret (by decide)

end Examples

end RathalOS.ProgramLoading
