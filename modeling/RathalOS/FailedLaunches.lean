import RathalOS.Launches

/-!
Launches that fail, exec of kernel/task/task.c. exec opens the file before it looks for a
free entry of the task table. Without one it looks beyond the table, and returns with the
descriptor still open; every further attempt costs another descriptor. Here exec also
returns the indices whose status it looks at.
-/
namespace RathalOS.FailedLaunches

open ByteMemory KernelFiles Syscalls Tasks Launches Runs

/-- The search with the indices it looks at. The one after the last entry is compared with
the size of the table only once its status was read. -/
def searchLoopLog (taskTable : Fin MAX_TASK_COUNT → TaskEntry) :
    List (Fin MAX_TASK_COUNT) → Option (Fin MAX_TASK_COUNT) × List ℕ
  | [] => (none, [MAX_TASK_COUNT])
  | index :: rest =>
    if (taskTable index).status ≠ 0 then
      let (found, consulted) := searchLoopLog taskTable rest
      (found, (index : ℕ) :: consulted)
    else (some index, [(index : ℕ)])

/-- exec with the indices of the task table it looks at. -/
def execLog (disk : Memory) (stale : ℕ) (taskSwitch : BitVec 16 → System → System) (s : System)
    (filename : Memory) : Except Fault (ℤ × System × List ℕ) := do
  let stats ← fileStat s.kernel filename
  match stats with
  | none => .ok (TASK_FAILURE, s, [])
  | some stats => do
    let (fd, k) ← fileOpen s.kernel filename
    match searchLoopLog s.taskTable (List.finRange MAX_TASK_COUNT) with
    | (none, consulted) => .ok (TASK_FAILURE, { s with kernel := k }, consulted)
    | (some index, consulted) => do
      let task := { s.taskTable index with status := 1 }
      let task ← loadProgram disk stale k fd task (uintOfInt stats.size)
      let k ← fileClose k fd
      let s : System := { kernel := k, taskTable := Function.update s.taskTable index task }
      .ok (TASK_SUCCESS, taskSwitch task.tssSelector s, consulted)

/-- If exec returns TASK_FAILURE, both tables are as before, and it looked at no entry outside
the task table. -/
def FailsUnchanged (disk : Memory) (stale : ℕ) (taskSwitch : BitVec 16 → System → System)
    (s : System) (filename : Memory) : Prop :=
  ∀ s' consulted, execLog disk stale taskSwitch s filename = .ok (TASK_FAILURE, s', consulted) →
    s'.kernel.fileDescriptorTab = s.kernel.fileDescriptorTab ∧ s'.taskTable = s.taskTable ∧
      ∀ index ∈ consulted, index < MAX_TASK_COUNT

/-- The number of descriptors that are free. -/
def freeDescriptors (s : System) : ℕ :=
  (Finset.univ.filter fun fd => (s.kernel.fileDescriptorTab fd).status = 0).card

/-- The file exists, and every entry of the task table is taken. -/
structure Crowded (s : System) (filename : Memory) : Prop where
  file : ∃ stat, fileStat s.kernel filename = .ok (some stat)
  full : freeSlots s = 0

section Searching

variable (taskTable : Fin MAX_TASK_COUNT → TaskEntry)

theorem searchLoopLog_fst (l : List (Fin MAX_TASK_COUNT)) :
    (searchLoopLog taskTable l).1 = searchLoop taskTable l := by
  induction l with
  | nil => rfl
  | cons index rest ih =>
    rw [searchLoopLog, searchLoop]
    split
    · exact ih
    · rfl

variable {taskTable}

/-- A search that finds nothing has looked beyond the table. -/
theorem searchLoopLog_none {l : List (Fin MAX_TASK_COUNT)} (h : searchLoop taskTable l = none) :
    ∃ consulted, searchLoopLog taskTable l = (none, consulted) ∧ MAX_TASK_COUNT ∈ consulted := by
  induction l with
  | nil => exact ⟨_, rfl, List.mem_singleton_self _⟩
  | cons index rest ih =>
    rw [searchLoop] at h
    rw [searchLoopLog]
    split at h
    · rename_i hused
      obtain ⟨consulted, hlog, hmem⟩ := ih h
      rw [if_pos hused, hlog]
      exact ⟨_, rfl, List.mem_cons_of_mem _ hmem⟩
    · cases h

end Searching

section Failing

variable {disk : Memory} {stale : ℕ} {taskSwitch : BitVec 16 → System → System} {s : System}
  {filename : Memory}

/-- Without the indices, `execLog` is exec. -/
theorem execLog_erase : (execLog disk stale taskSwitch s filename).map (fun r => (r.1, r.2.1)) =
    exec disk stale taskSwitch s filename := by
  refine map_bind_eq fun stats => ?_
  cases stats with
  | none => rfl
  | some stats =>
    refine map_bind_eq fun r => ?_
    rw [← searchLoopLog_fst]
    cases searchLoopLog s.taskTable (List.finRange MAX_TASK_COUNT) with
    | mk found consulted =>
      cases found with
      | none => rfl
      | some index => exact map_bind_eq fun task => map_bind_eq fun k => rfl

/-- With every entry taken exec looks beyond the table, whatever became of the descriptor. -/
theorem execLog_crowded (h : Crowded s filename) (disk : Memory) (stale : ℕ)
    (taskSwitch : BitVec 16 → System → System) : ∃ fd k consulted,
    fileOpen s.kernel filename = .ok (fd, k) ∧
      execLog disk stale taskSwitch s filename =
        .ok (TASK_FAILURE, { s with kernel := k }, consulted) ∧ MAX_TASK_COUNT ∈ consulted := by
  obtain ⟨stat, hstat⟩ := h.file
  obtain ⟨consulted, hsearch, hmem⟩ := searchLoopLog_none (freeSlots_eq_zero_iff.mp h.full)
  have hopen : ∃ fd k, fileOpen s.kernel filename = .ok (fd, k) := by
    by_cases hfree : ∃ fd, (s.kernel.fileDescriptorTab fd).status = 0
    · obtain ⟨fd, slot, hopen⟩ := fileOpen_of_fileStat hstat hfree
      exact ⟨_, _, hopen⟩
    · exact ⟨_, _, fileOpen_of_used hstat fun fd hfd => hfree ⟨fd, hfd⟩⟩
  obtain ⟨fd, k, hopen⟩ := hopen
  refine ⟨fd, k, consulted, hopen, ?_, hmem⟩
  simp only [execLog, hstat, ok_bind, hopen, hsearch]

/-- Unless every entry is taken, a failure means that there is no such file. -/
theorem execLog_failure (hfree : freeSlots s ≠ 0) {s' : System} {consulted : List ℕ}
    (h : execLog disk stale taskSwitch s filename = .ok (TASK_FAILURE, s', consulted)) :
    s' = s ∧ consulted = [] := by
  obtain ⟨stats, -, h⟩ := bind_eq_ok h
  cases stats with
  | none =>
    cases h
    exact ⟨rfl, rfl⟩
  | some stats =>
    obtain ⟨⟨fd, k⟩, -, h⟩ := bind_eq_ok h
    have hfst := searchLoopLog_fst s.taskTable (List.finRange MAX_TASK_COUNT)
    cases hlog : searchLoopLog s.taskTable (List.finRange MAX_TASK_COUNT) with
    | mk found indices =>
      rw [hlog] at h hfst
      cases found with
      | none => exact absurd (freeSlots_eq_zero_iff.mpr hfst.symm) hfree
      | some index =>
        obtain ⟨task, -, h⟩ := bind_eq_ok h
        obtain ⟨k, -, h⟩ := bind_eq_ok h
        have hret : TASK_SUCCESS = TASK_FAILURE := congrArg Prod.fst (Except.ok.inj h)
        exact absurd hret (by decide)

end Failing

/-- A launch that fails leaves the tables as they are, and looks at no entry beyond the task
table, unless the file exists and every entry is taken. -/
theorem failsUnchanged_iff (disk : Memory) (stale : ℕ)
    (taskSwitch : BitVec 16 → System → System) (s : System) (filename : Memory) :
    FailsUnchanged disk stale taskSwitch s filename ↔ ¬ Crowded s filename := by
  constructor
  · intro h hcrowded
    obtain ⟨fd, k, consulted, -, hexec, hmem⟩ :=
      execLog_crowded hcrowded disk stale taskSwitch
    obtain ⟨-, -, hinside⟩ := h _ _ hexec
    exact Nat.lt_irrefl _ (hinside _ hmem)
  · intro h s' consulted hexec
    by_cases hfull : freeSlots s = 0
    · obtain ⟨stats, hstat, hrest⟩ := bind_eq_ok hexec
      cases stats with
      | none =>
        cases hrest
        exact ⟨rfl, rfl, fun index hmem => absurd hmem List.not_mem_nil⟩
      | some stats => exact absurd ⟨⟨stats, hstat⟩, hfull⟩ h
    · obtain ⟨rfl, rfl⟩ := execLog_failure hfull hexec
      exact ⟨rfl, rfl, fun index hmem => absurd hmem List.not_mem_nil⟩

section Leaking

variable {disk : Memory} {stale : ℕ} {s : System} {l : Launch}

theorem freeDescriptors_eq_zero_iff : freeDescriptors s = 0 ↔
    ∀ fd, (s.kernel.fileDescriptorTab fd).status ≠ 0 := by
  rw [freeDescriptors, Finset.card_eq_zero, Finset.filter_eq_empty_iff]
  simp only [Finset.mem_univ, true_implies, ne_eq]

theorem Crowded.exec (h : Crowded s l.filename) (disk : Memory) (stale : ℕ) : ∃ fd k,
    fileOpen s.kernel l.filename = .ok (fd, k) ∧
      Launches.exec disk stale l.taskSwitch s l.filename =
        .ok (TASK_FAILURE, { s with kernel := k }) := by
  obtain ⟨fd, k, consulted, hopen, hlog, -⟩ := execLog_crowded h disk stale l.taskSwitch
  refine ⟨fd, k, hopen, ?_⟩
  rw [← execLog_erase, hlog]
  rfl

/-- The launch that fails keeps the descriptor that it opened. -/
theorem Crowded.leaks (h : Crowded s l.filename) (hfree : 0 < freeDescriptors s)
    (disk : Memory) (stale : ℕ) :
    ∃ s', launch disk stale s l = .ok s' ∧ freeDescriptors s' + 1 = freeDescriptors s := by
  obtain ⟨fd, k, hopen, hexec⟩ := h.exec disk stale
  obtain ⟨stat, hstat⟩ := h.file
  refine ⟨{ s with kernel := k }, by rw [launch, hexec, ok_bind], ?_⟩
  have hsome : ∃ fd, (s.kernel.fileDescriptorTab fd).status = 0 := by
    by_contra hnone
    rw [freeDescriptors_eq_zero_iff.mpr fun fd hfd => hnone ⟨fd, hfd⟩] at hfree
    exact Nat.lt_irrefl 0 hfree
  obtain ⟨i, slot, hopen'⟩ := fileOpen_of_fileStat hstat hsome
  have hfd : fd ≠ -1 := by
    rw [hopen] at hopen'
    have hi : fd = ((i : ℕ) : ℤ) := congrArg Prod.fst (Except.ok.inj hopen')
    omega
  obtain ⟨i, slot, slotsRead, hzero, -, -, rfl⟩ := fileOpen_eq hopen hfd
  refine card_take hzero ?_ fun j hj => ?_
  · dsimp only
    rw [setDescriptor_self]
    exact (by decide : (1 : Byte) ≠ 0)
  · dsimp only
    rw [setDescriptor_other _ _ hj]

/-- file_open has no descriptor for the program. -/
def OutOfDescriptors (s : System) (l : Launch) : Prop :=
  fileOpen s.kernel l.filename = .ok (-1, s.kernel)

/-- Launches that fail for want of an entry go on until all descriptors have leaked, after
which file_open fails as well. -/
theorem crowded_leaks {launches : List Launch}
    (hcrowded : Each (launch disk stale) (fun s l => Crowded s l.filename) s launches) :
    Each (launch disk stale) (fun s l => ¬ OutOfDescriptors s l) s launches ↔
      launches.length ≤ freeDescriptors s := by
  apply each_iff_length_le ?_ ?_ hcrowded
  · intro s l hl hfree
    refine ⟨fun hout => ?_, hl.leaks hfree disk stale⟩
    obtain ⟨s', hlaunch, hspent⟩ := hl.leaks hfree disk stale
    obtain ⟨fd, k, hopen, hexec⟩ := hl.exec disk stale
    rw [hout] at hopen
    cases hopen
    rw [launch, hexec, ok_bind] at hlaunch
    cases hlaunch
    exact absurd hspent (Nat.succ_ne_self _)
  · intro s l hl hnone hsome
    obtain ⟨stat, hstat⟩ := hl.file
    exact hsome (fileOpen_of_used hstat (freeDescriptors_eq_zero_iff.mp hnone))

end Leaking

section Examples

open AddedFiles FileRemoval

/-- All entries of the task table are taken. -/
def crowd (s : System) : System :=
  { s with taskTable := fun i => { s.taskTable i with status := 1 } }

theorem crowd_full (s : System) : freeSlots (crowd s) = 0 := by
  rw [freeSlots, Finset.card_eq_zero, Finset.filter_eq_empty_iff]
  intro i _
  exact (by decide : (1 : BitVec 32) ≠ 0)

theorem crowd_kernel (s : System) : (crowd s).kernel = s.kernel := rfl

/-- A failing launch of the file of the large image leaves descriptor 0 open. -/
theorem failsUnchanged_crowd : Crowded (crowd bootSystem) (nameOf 97) ∧
    (∃ s', exec largeImage.bytes 0 (fun _ s => s) (crowd bootSystem) (nameOf 97) =
        .ok (TASK_FAILURE, s') ∧ ((crowd bootSystem).kernel.fileDescriptorTab 0).status = 0 ∧
      (s'.kernel.fileDescriptorTab 0).status = 1) ∧
    ¬ FailsUnchanged largeImage.bytes 0 (fun _ s => s) (crowd bootSystem) (nameOf 97) := by
  obtain ⟨stat, hstat, -⟩ := bootSystem_ready.file
  have hcrowded : Crowded (crowd bootSystem) (nameOf 97) := by
    refine ⟨⟨stat, ?_⟩, crowd_full bootSystem⟩
    rw [crowd_kernel]
    exact hstat
  obtain ⟨k, hopen⟩ := exists_of_map_fst (by decide +kernel :
    (fileOpen largeKernel (nameOf 97)).map Prod.fst = .ok 0)
  obtain ⟨fd, k', consulted, hopen', hlog, hmem⟩ := execLog_crowded hcrowded
    largeImage.bytes 0 fun _ s => s
  rw [crowd_kernel, show bootSystem.kernel = largeKernel from rfl, hopen] at hopen'
  cases hopen'
  obtain ⟨i, slot, slotsRead, hzero, -, hi, rfl⟩ := fileOpen_eq hopen (by decide)
  have hfirst : i = 0 := Fin.ext (show (i : ℕ) = 0 by omega)
  subst hfirst
  refine ⟨hcrowded, ⟨{ crowd bootSystem with
    kernel := largeKernel.setDescriptor 0 ⟨some slot, 1, 0⟩ }, ?_, ?_, ?_⟩, fun hfails => ?_⟩
  · rw [← execLog_erase, hlog]
    rfl
  · rw [crowd_kernel]
    exact hzero
  · dsimp only
    rw [setDescriptor_self]
  · obtain ⟨-, -, hinside⟩ := hfails _ _ hlog
    exact Nat.lt_irrefl _ (hinside _ hmem)

end Examples

end RathalOS.FailedLaunches
