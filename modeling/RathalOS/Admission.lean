import RathalOS.AddedFiles

/-!
When add_file succeeds. A file of k blocks needs them and one table for every
further block of pointers after the direct ones. The loops reserve a table only
while blocks are left to list in it, so they stop short of the contents only when
the pointers or the free blocks have run out.
-/
namespace RathalOS.Admission

open ByteMemory ByteFile Bitmaps CStrings Superblocks Inodes FileAccess FirstFit
open Images EmptyImages AddFile Reservations Allocation CopyLoops AddOutcomes AddedFiles

/-- The number of indirect blocks that list the blocks of a file after the fourth. -/
def tablesFor (sb : Superblock) (k : ℕ) : ℕ :=
  (k - 4 + (sb.blockSize / 2 - 1)) / (sb.blockSize / 2)

/-- The number of blocks a file of n bytes takes. -/
def demand (sb : Superblock) (n : ℕ) : ℕ := blocksFor sb n + tablesFor sb (blocksFor sb n)

/-- The number of blocks a file can have. -/
def capacity (sb : Superblock) : ℕ := 4 + 9 * (sb.blockSize / 2)

def freeBlocks (sb : Superblock) (m : Memory) : ℕ := freeCount (dataBit sb m) sb.datablockCount

def freeInodes (sb : Superblock) (m : Memory) : ℕ := freeCount (inodeBit sb m) sb.inodeCount

section Counting

variable {stale : Memory} {sb : Superblock} {fs f : File} {n : ℕ} {data tables : List ℕ}
variable {log : Log} {s : CopyState}

/-- A table is still needed exactly while some blocks are not listed. -/
theorem lt_tablesFor_iff (hbs : 512 ≤ sb.blockSize) (i k : ℕ) :
    i < tablesFor sb k ↔ 4 + i * (sb.blockSize / 2) < k := by
  have hpos : 0 < sb.blockSize / 2 := by omega
  unfold tablesFor
  rw [Nat.lt_iff_add_one_le, Nat.le_div_iff_mul_le hpos, Nat.add_mul]
  omega

theorem copied_free (h : Copied stale sb fs f n data tables log s) :
    freeBlocks sb fs.bytes = freeCount s.datablockBitmap.test sb.datablockCount +
      (data.length + tables.length) := by
  rw [freeBlocks, h.progress.taken.freeCount, List.length_append]

/-- The loops never reserve a table that would stay empty. -/
theorem copied_tables_le (h : Copied stale sb fs f n data tables log s)
    (hbs : 512 ≤ sb.blockSize) :
    tables.length ≤ tablesFor sb (blocksFor sb (intOfUint n).toNat) := by
  by_contra hlt
  have hneeded := h.progress.tables_needed
    (tablesFor sb (blocksFor sb (intOfUint n).toNat)) (by omega)
  rw [← lt_tablesFor_iff hbs] at hneeded
  exact Nat.lt_irrefl _ hneeded

/-- A copy that is complete has taken exactly the demand. -/
theorem copied_complete (h : Copied stale sb fs f n data tables log s)
    (hbs : 512 ≤ sb.blockSize) (hdone : ¬ 0 < s.dataLeft) :
    data.length = blocksFor sb (intOfUint n).toNat ∧
      tables.length = tablesFor sb (blocksFor sb (intOfUint n).toNat) := by
  have hle := h.progress.data_le
  have hmore := mt (h.progress.more_iff (by omega)).mpr hdone
  have hdata : data.length = blocksFor sb (intOfUint n).toNat := by omega
  refine ⟨hdata, Nat.le_antisymm (copied_tables_le h hbs) ?_⟩
  by_contra hlt
  have hneed := (lt_tablesFor_iff hbs _ _).mp (Nat.lt_of_not_le hlt)
  have hroom := h.room
  omega

/-- The copy is complete exactly when the pointers and the free blocks suffice. -/
theorem copied_done_iff (h : Copied stale sb fs f n data tables log s)
    (hbs : 512 ≤ sb.blockSize) :
    ¬ 0 < s.dataLeft ↔ blocksFor sb (intOfUint n).toNat ≤ capacity sb ∧
      demand sb (intOfUint n).toNat ≤ freeBlocks sb fs.bytes := by
  have hfree := copied_free h
  constructor
  · intro hdone
    obtain ⟨hdata, htables⟩ := copied_complete h hbs hdone
    have hroom := h.room
    have hmax := Nat.mul_le_mul_right (sb.blockSize / 2) h.tables_le
    rw [capacity, demand]
    omega
  · intro hsuffice hleft
    obtain ⟨hcapacity, hdemand⟩ := hsuffice
    have hshort := (h.progress.more_iff (by omega)).mp hleft
    by_cases hmore : s.more
    · have hfull := h.full hmore
      rw [capacity] at hcapacity
      omega
    · -- nothing is free any more, so every free block has been taken
      have hnone : ¬ 0 < s.freeDatablocks := fun hpos => hmore ⟨hpos, hleft⟩
      have hcount := h.progress.free
      have htables := copied_tables_le h hbs
      rw [demand] at hdemand
      omega

/-- No reservation of a copy returned -1. -/
theorem logged_index {held : ℕ → Bool} (h : Logged sb held log data tables) :
    ∀ r ∈ log, ∃ b ∈ data ++ tables, r.index = (b : ℤ) := by
  intro r hr
  rcases (h.mem_iff r).mp hr with ⟨k, hk, rfl⟩ | ⟨i, hi, rfl⟩
  · exact ⟨_, List.mem_append_left _ (getD_mem hk), rfl⟩
  · exact ⟨_, List.mem_append_right _ (getD_mem hi), rfl⟩

end Counting

section Admission

variable {stale : Memory} {sb : Superblock} {fs fs' f : File} {n : ℕ} {filename : Memory}

/-- What an image must offer for a file of n bytes to be added under a name. -/
structure Admits (sb : Superblock) (m : Memory) (filename : Memory) (n : ℕ) : Prop where
  name : ∀ i, Live sb m i → (inodeAt sb m i).shownName ≠ cut 31 filename
  inode : ∃ i < sb.inodeCount, inodeBit sb m i = false
  capacity : blocksFor sb n ≤ capacity sb
  room : demand sb n ≤ freeBlocks sb m

/-- A new file takes exactly its demand and one inode. -/
theorem added_consumes {i : ℕ} {data tables : List ℕ} {m m' : Memory}
    (h : Added stale sb f n filename i data tables m m') :
    freeBlocks sb m = freeBlocks sb m' + (data.length + tables.length) ∧
      freeInodes sb m = freeInodes sb m' + 1 := by
  have hblocks : Taken (dataBit sb m) (dataBit sb m') sb.datablockCount (data ++ tables) :=
    ⟨h.dataBits, h.distinct, h.fresh⟩
  have hinodes : Taken (inodeBit sb m) (inodeBit sb m') sb.inodeCount [i] := by
    constructor
    case held_iff =>
      intro j hj
      rw [h.inodeBits j hj, List.mem_singleton]
    case distinct => exact List.nodup_singleton i
    case fresh =>
      intro j hj
      rw [List.mem_singleton] at hj
      rw [hj]
      exact ⟨h.slot_lt, h.slot_free⟩
  rw [freeBlocks, freeBlocks, hblocks.freeCount, freeInodes, freeInodes, hinodes.freeCount,
    List.length_append]
  exact ⟨rfl, rfl⟩

/-- add_file succeeds exactly when the name is new, an inode is free, and the
pointers and the free blocks suffice; it then takes one inode and as many blocks
as the contents need. None of its reservations fails. -/
theorem addFile_succeeds_iff (hc : Consistent sb fs) (stale filename : Memory) (f : File)
    (hn : n < 2 ^ 31) :
    ∃ outcome fs' log, addFileLog stale f filename n fs = .ok (outcome, fs', log) ∧
      addFile stale f filename n fs = .ok (outcome, fs') ∧
      (outcome = .added ↔ Admits sb fs.bytes filename n) ∧
      (outcome = .added →
        freeBlocks sb fs.bytes = freeBlocks sb fs'.bytes + demand sb n ∧
        freeInodes sb fs.bytes = freeInodes sb fs'.bytes + 1) ∧
      ∀ r ∈ log, r.index ≠ -1 := by
  have hbs := hc.layout.blockSize_bounds.1
  rcases addFileLog_spec hc.accessible stale filename f (by omega : n < 2 ^ 32) with
    ⟨hfound, p, hrun⟩ | ⟨hfound, hheld, p, hrun⟩ |
    ⟨hfound, i, hi, hclear, data, tables, log, s, hcopied, hend⟩
  · refine ⟨_, _, _, hrun, addFile_of_log hrun, ?_, (fun h => nomatch h), (fun r hr => nomatch hr)⟩
    refine iff_of_false (by decide) fun hadmits => hfound ?_
    exact lookup_none_iff.mpr hadmits.name
  · refine ⟨_, _, _, hrun, addFile_of_log hrun, ?_, (fun h => nomatch h), (fun r hr => nomatch hr)⟩
    refine iff_of_false (by decide) fun hadmits => ?_
    obtain ⟨i, hi, hclear⟩ := hadmits.inode
    rw [hheld i hi] at hclear
    exact Bool.noConfusion hclear
  · have hindex : ∀ r ∈ log, r.index ≠ -1 := by
      intro r hr
      obtain ⟨b, -, hb⟩ := logged_index hcopied.logged r hr
      omega
    have hsize : (intOfUint n).toNat = n := by rw [intOfUint_of_lt hn, Int.toNat_natCast]
    have hdone := copied_done_iff hcopied hbs
    rw [hsize] at hdone
    rcases hend with ⟨hleft, hrun⟩ | ⟨hnone, ib, itab, fs', hrun, hstored⟩
    · refine ⟨_, _, _, hrun, addFile_of_log hrun, ?_, (fun h => nomatch h), hindex⟩
      exact iff_of_false (by decide) fun hadmits =>
        hdone.mpr ⟨hadmits.capacity, hadmits.room⟩ hleft
    · obtain ⟨hcapacity, hroom⟩ := hdone.mp hnone
      have hadded := added_of_stored hc hcopied hstored (by omega) hnone hi hclear
      obtain ⟨hdata, htables⟩ := copied_complete hcopied hbs hnone
      rw [hsize] at hdata htables
      obtain ⟨hblocks, hinodes⟩ := added_consumes hadded
      refine ⟨_, _, _, hrun, addFile_of_log hrun, ?_, fun _ => ⟨?_, hinodes⟩, hindex⟩
      · exact iff_of_true rfl ⟨lookup_none_iff.mp hfound, ⟨i, hi, hclear⟩, hcapacity, hroom⟩
      · rw [hblocks, hdata, htables, demand]

/-- A second file of one block fits into the one block left. -/
theorem addFile_succeeds_iff_second : ∃ fs',
    addFile (fun _ => 0) (zeroFile 100) (nameOf 98) 100 largeImage = .ok (.added, fs') ∧
    Admits smallSuperblock largeImage.bytes (nameOf 98) 100 ∧
    freeBlocks smallSuperblock largeImage.bytes = freeBlocks smallSuperblock fs'.bytes + 1 := by
  obtain ⟨outcome, fs', log, -, hadd, hiff, hused, -⟩ := addFile_succeeds_iff
    largeImage_wellFormed.toConsistent (fun _ => 0) (nameOf 98) (zeroFile 100)
    (by decide : 100 < 2 ^ 31)
  have hsucceeded : succeeded
      (addFile (fun _ => 0) (zeroFile 100) (nameOf 98) 100 largeImage) = true := by
    decide +kernel
  have hdemand : demand smallSuperblock 100 = 1 := by decide
  have hsame := hadd.symm.trans (eq_of_succeeded hsucceeded)
  have houtcome : outcome = .added := congrArg Prod.fst (Except.ok.inj hsame)
  rw [hdemand] at hused
  rw [houtcome] at hadd
  exact ⟨fs', hadd, hiff.mp houtcome, (hused houtcome).1⟩

end Admission

end RathalOS.Admission
