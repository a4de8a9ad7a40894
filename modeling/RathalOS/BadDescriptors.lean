import RathalOS.Launches

/-!
Descriptors that are not open, kernel/fs/fs.c. file_read and file_seek look at the status of
a descriptor, but no operation looks whether there is such a descriptor in the table. One
that is closed fails as it should; any other number reaches memory outside the table, also
the -1 that file_open returns and exec passes on.
-/
namespace RathalOS.BadDescriptors

open ByteMemory Inodes KernelFiles Launches

/-- The operations on a descriptor fail: they return -1, where they return a result, and
change neither the buffer nor the kernel. -/
structure FailsCleanly (k : Kernel) (disk : Memory) (stale : ℕ) (fd : ℤ) : Prop where
  read : ∀ buf (count : BitVec 32), fileRead k disk stale fd buf count.toNat = .ok (-1, buf)
  seek : ∀ offset : BitVec 32, fileSeek k fd offset.toNat = .ok (-1, k)
  close : fileClose k fd = .ok k

/-- No descriptor of the table has this number. -/
def Outside (fd : ℤ) : Prop := ∀ i : Fin FILE_DESCRIPTOR_TAB_SIZE, fd ≠ (i : ℕ)

section Operations

variable {k : Kernel} {fd : ℤ}

theorem outside_iff : Outside fd ↔ fd < 0 ∨ FILE_DESCRIPTOR_TAB_SIZE ≤ fd := by
  constructor
  · intro h
    by_contra hin
    exact h ⟨fd.toNat, by omega⟩ (by dsimp only; omega)
  · intro h i
    have hi := i.isLt
    omega

theorem descriptor_outside (h : Outside fd) : k.descriptor fd = .error .undefined := by
  rw [Kernel.descriptor, dif_neg]
  rw [outside_iff] at h
  omega

theorem close_closed {i : Fin FILE_DESCRIPTOR_TAB_SIZE} :
    fileClose k (i : ℕ) = .ok k ↔ (k.fileDescriptorTab i).status = 0 := by
  rw [fileClose, Kernel.descriptor_val, ok_bind]
  constructor
  · intro h
    have hentry := congrArg (fun k => (k.fileDescriptorTab i).status) (Except.ok.inj h)
    dsimp only at hentry
    rw [setDescriptor_self] at hentry
    exact hentry.symm
  · intro h
    have hsame : { k.fileDescriptorTab i with status := 0 } = k.fileDescriptorTab i := by
      rw [← h]
    rw [hsame, Kernel.setDescriptor, Function.update_eq_self]

theorem failsCleanly_of_closed (disk : Memory) (stale : ℕ) {i : Fin FILE_DESCRIPTOR_TAB_SIZE}
    (h : (k.fileDescriptorTab i).status = 0) : FailsCleanly k disk stale (i : ℕ) where
  read buf count := by rw [fileRead, Kernel.descriptor_val, ok_bind, if_pos h]
  seek offset := by
    have hstatus : (k.fileDescriptorTab i).status ≠ 1 := by
      rw [h]
      decide
    rw [fileSeek, Kernel.descriptor_val, ok_bind, if_neg hstatus]
  close := close_closed.mpr h

/-- Outside the table every operation is undefined. -/
theorem undefined_of_outside (disk : Memory) (stale : ℕ) (h : Outside fd) :
    (∀ buf count, fileRead k disk stale fd buf count = .error .undefined) ∧
      (∀ offset, fileSeek k fd offset = .error .undefined) ∧
      fileClose k fd = .error .undefined := by
  have hdescriptor := descriptor_outside (k := k) h
  refine ⟨fun buf count => ?_, fun offset => ?_, ?_⟩
  · rw [fileRead, hdescriptor]
    rfl
  · rw [fileSeek, hdescriptor]
    rfl
  · rw [fileClose, hdescriptor]
    rfl

theorem not_failsCleanly_outside {disk : Memory} {stale : ℕ} (h : Outside fd) :
    ¬ FailsCleanly k disk stale fd := by
  intro hclean
  have hclose := hclean.close
  rw [(undefined_of_outside disk stale h).2.2] at hclose
  cases hclose

end Operations

/-- The operations on a 32-bit descriptor fail cleanly exactly if it is a descriptor of the
table and closed. -/
theorem failsCleanly_iff (k : Kernel) (disk : Memory) (stale : ℕ) (fd : BitVec 32) :
    FailsCleanly k disk stale fd.toInt ↔
      ∃ i : Fin FILE_DESCRIPTOR_TAB_SIZE,
        fd.toInt = (i : ℕ) ∧ (k.fileDescriptorTab i).status = 0 := by
  constructor
  · intro hclean
    by_cases hout : Outside fd.toInt
    · exact absurd hclean (not_failsCleanly_outside hout)
    · obtain ⟨i, hi⟩ := not_forall_not.mp hout
      have hclose := hclean.close
      rw [hi] at hclose
      exact ⟨i, hi, close_closed.mp hclose⟩
  · intro hclosed
    obtain ⟨i, hi, hstatus⟩ := hclosed
    rw [hi]
    exact failsCleanly_of_closed disk stale hstatus

/-- Without a free descriptor exec reads through descriptor -1. -/
theorem exec_undefined {disk : Memory} {stale : ℕ} {s : System} {filename : Memory} {stat : Stat}
    (hstat : fileStat s.kernel filename = .ok (some stat))
    (hused : ∀ fd, (s.kernel.fileDescriptorTab fd).status ≠ 0) (hfree : 0 < freeSlots s)
    (taskSwitch : BitVec 16 → System → System) :
    exec disk stale taskSwitch s filename = .error .undefined := by
  simp only [exec, hstat, ok_bind, fileOpen_of_used hstat hused]
  cases hsearch : searchLoop s.taskTable (List.finRange Syscalls.MAX_TASK_COUNT) with
  | none =>
    rw [freeSlots_eq_zero_iff.mpr hsearch] at hfree
    exact absurd hfree (Nat.lt_irrefl 0)
  | some index =>
    simp only [loadProgram_refused]
    rfl

section Examples

open AddedFiles FileRemoval

/-- The file of the large image is open on all descriptors. -/
def withFileOpen (s : System) : System :=
  { s with kernel := { s.kernel with fileDescriptorTab := fun _ => ⟨some 1, 1, 0⟩ } }

theorem withFileOpen_fileStat (s : System) (filename : Memory) :
    fileStat (withFileOpen s).kernel filename = fileStat s.kernel filename := rfl

theorem withFileOpen_freeSlots (s : System) : freeSlots (withFileOpen s) = freeSlots s := rfl

theorem withFileOpen_used (s : System) (fd : Fin FILE_DESCRIPTOR_TAB_SIZE) :
    ((withFileOpen s).kernel.fileDescriptorTab fd).status ≠ 0 := by
  change (1 : Byte) ≠ 0
  decide

/-- file_open returns -1, with which no operation fails cleanly, and exec is undefined. -/
theorem withFileOpen_refused :
    fileOpen (withFileOpen bootSystem).kernel (nameOf 97) =
      .ok (-1, (withFileOpen bootSystem).kernel) ∧
    ¬ FailsCleanly (withFileOpen bootSystem).kernel largeImage.bytes 0 (-1 : BitVec 32).toInt ∧
    exec largeImage.bytes 0 (fun _ s => s) (withFileOpen bootSystem) (nameOf 97) =
      .error .undefined := by
  obtain ⟨stat, hstat, -⟩ := bootSystem_ready.file
  have hopen : fileStat (withFileOpen bootSystem).kernel (nameOf 97) = .ok (some stat) := by
    rw [withFileOpen_fileStat]
    exact hstat
  have hfree : 0 < freeSlots (withFileOpen bootSystem) := by
    rw [withFileOpen_freeSlots, bootSystem_freeSlots]
    decide
  have hout : Outside (-1 : BitVec 32).toInt := outside_iff.mpr (Or.inl (by decide))
  exact ⟨fileOpen_of_used hopen (withFileOpen_used bootSystem), not_failsCleanly_outside hout,
    exec_undefined hopen (withFileOpen_used bootSystem) hfree _⟩

end Examples

end RathalOS.BadDescriptors
