import RathalOS.Admission

/-!
Images that only grow. While no file is deleted the used blocks are the first ones,
and first fit hands them out in the order in which add_file asks for them. So every
file lies in one piece, each table right before the blocks it lists.
-/
namespace RathalOS.GrowingImages

open ByteMemory ByteFile Bitmaps Superblocks Inodes FirstFit Images EmptyImages AddFile
open Reservations Allocation CopyLoops AddOutcomes AddedFiles Admission

/-- A call of add_file. -/
structure AddCall where
  stale : Memory
  f : File
  filename : Memory
  fileSize : ℕ

/-- Calls of add_file one after the other, with how each of them ended. -/
def addFiles : List AddCall → File → Except Fault (List AddOutcome × File)
  | [], fs => .ok ([], fs)
  | c :: rest, fs => do
    let (outcome, fs) ← addFile c.stale c.f c.filename c.fileSize fs
    let (outcomes, fs) ← addFiles rest fs
    .ok (outcome :: outcomes, fs)

/-- The number of data blocks of a file; a size that is negative as a long has none. -/
def dataBlocks (sb : Superblock) (inode : Inode) : ℕ :=
  blocksFor sb (intOfUint inode.size.toNat).toNat

/-- The blocks and tables of a file follow one another from block s on. -/
structure StartsAt (sb : Superblock) (m : Memory) (inode : Inode) (s : ℕ) : Prop where
  data : ∀ k < dataBlocks sb inode, fileBlock sb m inode k = s + dataRank sb k
  tables : ∀ j, 4 + j * (sb.blockSize / 2) < dataBlocks sb inode →
    indirectAt inode j = s + tableRank sb j

/-- The used blocks are the first ones, and every file lies in one piece. -/
structure Contiguous (sb : Superblock) (m : Memory) : Prop where
  used : ∃ k, ∀ b < sb.datablockCount, dataBit sb m b = true ↔ b < k
  files : ∀ i, Live sb m i → ∃ s, StartsAt sb m (inodeAt sb m i) s

section

variable {sb : Superblock} {fs fs' f : File} {n : ℕ}

theorem contiguous_of_empty {m : Memory} (h : Empty sb m) : Contiguous sb m where
  used := by
    refine ⟨1, fun b hb => ?_⟩
    rw [h.dataBit_iff b hb]
    omega
  files := fun i hi => absurd hi (h.not_live i)

theorem startsAt_sameFile {j s : ℕ} (h : SameFile sb fs.bytes fs'.bytes j)
    (hs : StartsAt sb fs.bytes (inodeAt sb fs.bytes j) s) :
    StartsAt sb fs'.bytes (inodeAt sb fs'.bytes j) s := by
  have hpointer := h.pointer
  rw [h.inode] at hpointer ⊢
  refine ⟨fun k hk => ?_, hs.tables⟩
  rw [fileBlock_eq_pointer, hpointer, ← fileBlock_eq_pointer]
  exact hs.data k hk

theorem contiguous_scribbled (hc : Consistent sb fs) (h : Contiguous sb fs.bytes)
    (hscr : Scribbled sb fs.bytes fs'.bytes) : Contiguous sb fs'.bytes := by
  have hl := hc.layout
  have hbounds := hl.blockSize_bounds
  obtain ⟨-, -, h3, h4, -⟩ := hl.regions.offsets
  obtain ⟨-, hdb, -⟩ := hl.tables_fit
  obtain ⟨k, hused⟩ := h.used
  constructor
  case used =>
    refine ⟨k, fun b hb => ?_⟩
    have hbit : dataBit sb fs'.bytes b = dataBit sb fs.bytes b := by
      unfold dataBit bitAt
      rw [hscr.metadata (by omega) (by omega)]
    rw [hbit, hused b hb]
  case files =>
    intro j hj
    have hlive : Live sb fs.bytes j := ⟨hj.1, by rw [← hscr.inodeAt hl.regions hj.1]; exact hj.2⟩
    obtain ⟨s, hs⟩ := h.files j hlive
    exact ⟨s, startsAt_sameFile (hscr.sameFile hc hlive) hs⟩

theorem contiguous_added (hc : Consistent sb fs) (h : Contiguous sb fs.bytes)
    {stale filename : Memory} {i : ℕ} {data tables : List ℕ} {log : Log}
    (hlog : Logged sb (dataBit sb fs.bytes) log data tables)
    (hadded : Added stale sb f n filename i data tables fs.bytes fs'.bytes) :
    Contiguous sb fs'.bytes := by
  have hbs := hc.layout.blockSize_bounds.1
  obtain ⟨k, hused⟩ := h.used
  constructor
  case used =>
    apply exists_initial
    intro b hb hheld j hj
    rw [hadded.dataBits j (by omega)]
    by_cases hjk : j < k
    · exact Or.inl ((hused j (by omega)).mpr hjk)
    · have hclear : dataBit sb fs.bytes j = false := by
        rw [← Bool.not_eq_true, hused j (by omega)]
        exact hjk
      rcases (hadded.dataBits b hb).mp hheld with hold | hmem
      · exact absurd ((hused b hb).mp hold) (by omega)
      · exact Or.inr (hlog.lowest b hmem j hj hclear)
  case files =>
    intro j hj
    rcases (hadded.live_iff hc j).mp hj with hold | rfl
    · obtain ⟨s, hs⟩ := h.files j hold
      exact ⟨s, startsAt_sameFile (hadded.sameFile hc hold) hs⟩
    · have hplaced := hadded.placed (dataBit_zero hc)
      have hblocks : dataBlocks sb (inodeAt sb fs'.bytes j) = data.length := by
        rw [dataBlocks, hadded.size, hadded.length]
      have hrank : ∀ b ∈ data ++ tables, ∀ r, freeCount (dataBit sb fs.bytes) b = r →
          b = k + r := by
        intro b hb r hrank
        obtain ⟨hlt, hclear⟩ := hadded.fresh b hb
        rw [← hrank]
        exact eq_add_of_initial hused hlt hclear
      refine ⟨k, fun l hl => ?_, fun l hl => ?_⟩
      · rw [hblocks] at hl
        rw [hplaced.fileBlock hbs hl]
        exact hrank _ (List.mem_append_left _ (getD_mem hl)) _ (hlog.data_rank l hl)
      · rw [hblocks] at hl
        have hroom := hadded.room
        have hlt : l < tables.length := by
          by_contra hle
          have := Nat.mul_le_mul_right (sb.blockSize / 2) (Nat.le_of_not_lt hle)
          omega
        rw [hplaced.indirectAt]
        exact hrank _ (List.mem_append_right _ (getD_mem hlt)) _ (hlog.table_rank l hlt)

/-- A call of add_file returns and leaves the image contiguous, whether it succeeds or not. -/
theorem addFile_contiguous (hc : Consistent sb fs) (h : Contiguous sb fs.bytes) (c : AddCall)
    (hn : c.fileSize < 2 ^ 32) :
    ∃ outcome fs', addFile c.stale c.f c.filename c.fileSize fs = .ok (outcome, fs') ∧
      Consistent sb fs' ∧ Contiguous sb fs'.bytes := by
  rcases addFileLog_spec hc.accessible c.stale c.filename c.f hn with ⟨-, p, hrun⟩ |
    ⟨-, -, p, hrun⟩ | ⟨-, i, hi, hclear, data, tables, log, s, hcopied, hend⟩
  · have hscr : Scribbled sb fs.bytes (fs.movedTo p).bytes := Scribbled.refl _ _
    exact ⟨_, _, addFile_of_log hrun, hscr.consistent hc (Nat.le_refl _), h⟩
  · have hscr : Scribbled sb fs.bytes (fs.movedTo p).bytes := Scribbled.refl _ _
    exact ⟨_, _, addFile_of_log hrun, hscr.consistent hc (Nat.le_refl _), h⟩
  · rcases hend with ⟨-, hrun⟩ | ⟨hdone, ib, itab, fs', hrun, hstored⟩
    · have hscr := scribbled_of_progress hcopied.progress
      exact ⟨_, _, addFile_of_log hrun, hscr.consistent hc hcopied.progress.grows,
        contiguous_scribbled hc h hscr⟩
    · have hadded := added_of_stored hc hcopied hstored hn hdone hi hclear
      exact ⟨_, _, addFile_of_log hrun,
        hadded.consistent hc (Nat.le_trans hcopied.progress.grows hstored.grows),
        contiguous_added hc h hcopied.logged hadded⟩

theorem addFiles_contiguous (hc : Consistent sb fs) (h : Contiguous sb fs.bytes)
    (calls : List AddCall) (hn : ∀ c ∈ calls, c.fileSize < 2 ^ 32) :
    ∃ outcomes fs', addFiles calls fs = .ok (outcomes, fs') ∧ Consistent sb fs' ∧
      Contiguous sb fs'.bytes := by
  induction calls generalizing fs with
  | nil => exact ⟨[], fs, rfl, hc, h⟩
  | cons c rest ih =>
    obtain ⟨outcome, fs₁, hadd, hc₁, h₁⟩ := addFile_contiguous hc h c (hn c List.mem_cons_self)
    obtain ⟨outcomes, fs', hrest, hc', h'⟩ :=
      ih hc₁ h₁ fun c' hc' => hn c' (List.mem_cons_of_mem _ hc')
    refine ⟨outcome :: outcomes, fs', ?_, hc', h'⟩
    simp only [addFiles, hadd, ok_bind, hrest]

/-- From an empty image, any calls of add_file leave the used blocks a prefix and
every file in one piece. -/
theorem addFiles_from_empty (hw : WellFormed sb fs) (he : Empty sb fs.bytes)
    (calls : List AddCall) (hn : ∀ c ∈ calls, c.fileSize < 2 ^ 32) :
    ∃ outcomes fs', addFiles calls fs = .ok (outcomes, fs') ∧ Contiguous sb fs'.bytes := by
  obtain ⟨outcomes, fs', hadds, -, hcontiguous⟩ :=
    addFiles_contiguous hw.toConsistent (contiguous_of_empty he) calls hn
  exact ⟨outcomes, fs', hadds, hcontiguous⟩

/-- A file with a table, then one that does not fit, then one of a single block. -/
theorem addFiles_from_empty_small : ∃ outcomes fs',
    addFiles [⟨fun _ => 0, zeroFile 2560, nameOf 97, 2560⟩,
      ⟨fun _ => 0, zeroFile 2560, nameOf 98, 2560⟩, ⟨fun _ => 0, zeroFile 100, nameOf 99, 100⟩]
      (emptyImage smallSuperblock) = .ok (outcomes, fs') ∧
    Contiguous smallSuperblock fs'.bytes :=
  addFiles_from_empty smallImage_wellFormed (emptyImage_empty smallSuperblock_layout) _ (by simp)

end

end RathalOS.GrowingImages
