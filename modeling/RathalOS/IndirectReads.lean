import RathalOS.FileContents
import RathalOS.KernelReads

/-!
Where file_read looks for the blocks of a file. For entry j of an indirect block
it takes the data block 2j + 1 after the indirect block, whatever the entry
names. Read and file agree when every entry up to the count names that block;
where one names another block, they differ for some contents of the file.
-/
namespace RathalOS.IndirectReads

open ByteMemory ByteFile Superblocks Inodes FileAccess Images AddFile EmptyImages AddedFiles
open Allocation FileContents ReadBack KernelFiles Mounting KernelReads

/-- The first read on a descriptor just opened delivers the bytes fs_read delivers. -/
def ReadsAgree (fs : File) (disk filename : Memory)
    (tab : Fin FILE_DESCRIPTOR_TAB_SIZE → FileOpen) (count : ℕ) : Prop :=
  ∀ fd k, fileOpen (mounted disk tab) filename = .ok (fd, k) → fd ≠ -1 →
    ∀ (stale : ℕ) (stale' buf dest : Memory), ∃ ret buf' dest' fs',
      fileRead k disk stale fd buf count = .ok (ret, buf') ∧
      fsRead stale' filename 0 count dest fs = .ok (.done, dest', fs') ∧
      ∀ x < count, buf' x = dest' x

/-- Entry j of an indirect block names the data block 2j + 1 after it, for every block of the
file that a read of count bytes reaches, and the read stays below block 2304. -/
def BlocksFollow (sb : Superblock) (m : Memory) (inode : Inode) (count : ℕ) : Prop :=
  ∀ k, 4 ≤ k → 512 * k < count → k < 2304 ∧
    entryAt sb m inode ((k - 4) / 256) ((k - 4) % 256) =
      indirectAt inode ((k - 4) / 256) + 2 * ((k - 4) % 256) + 1

section Places

variable {sb : Superblock} {fs : File} {disk : Memory} {i count : ℕ}

theorem fileBlock_entry (hbs : sb.blockSize = 512) {m : Memory} {inode : Inode} {k : ℕ}
    (hk : 4 ≤ k) :
    fileBlock sb m inode k = entryAt sb m inode ((k - 4) / 256) ((k - 4) % 256) := by
  rw [fileBlock, if_neg (by omega), hbs]

/-- A byte of the file lies in the image, and on the disk. -/
theorem fileByte_disk (hc : Consistent sb fs) (hbs : sb.blockSize = 512)
    (hdisk : DiskHolds disk fs) (hi : Live sb fs.bytes i) (x : ℕ) :
    512 * (sb.datablocksStart + fileBlock sb fs.bytes (inodeAt sb fs.bytes i) (x / 512)) +
        x % 512 < fs.size ∧
      fileByte sb fs.bytes (inodeAt sb fs.bytes i) x =
        disk (512 * (sb.datablocksStart +
          fileBlock sb fs.bytes (inodeAt sb fs.bytes i) (x / 512)) + x % 512) := by
  have hrange : fileBlock sb fs.bytes (inodeAt sb fs.bytes i) (x / 512) < sb.datablockCount := by
    rw [fileBlock_eq_pointer]
    exact hc.blocks.inRange i _ hi
  obtain ⟨-, hend, -⟩ := hc.layout.regions.block_range hrange
  have hcovers := hc.covers
  rw [hbs] at hend hcovers
  have hin : 512 * (sb.datablocksStart +
      fileBlock sb fs.bytes (inodeAt sb fs.bytes i) (x / 512)) + x % 512 < fs.size := by omega
  refine ⟨hin, ?_⟩
  rw [hdisk _ hin, fileByte, blockData, advance_apply, hbs]

theorem BlocksFollow.congr {m m' : Memory} {inode : Inode} (h : BlocksFollow sb m inode count)
    (hsame : pointer sb m' inode = pointer sb m inode) : BlocksFollow sb m' inode count := by
  intro k hk hreached
  obtain ⟨hlast, hentry⟩ := h k hk hreached
  exact ⟨hlast, (congrFun hsame (.entry _ _)).trans hentry⟩

/-- Entries that follow their indirect block are read where they are. -/
theorem BlocksFollow.indirectAgrees
    (h : BlocksFollow sb fs.bytes (inodeAt sb fs.bytes i) count) (hc : Consistent sb fs)
    (hbs : sb.blockSize = 512) (hdisk : DiskHolds disk fs) (hi : Live sb fs.bytes i)
    (buf : Memory) : IndirectAgrees sb fs disk (inodeAt sb fs.bytes i) buf count := by
  intro x hx hcount
  obtain ⟨hlast, hentry⟩ := h (x / 512) (by omega) (by omega)
  obtain ⟨-, hbyte⟩ := fileByte_disk hc hbs hdisk hi x
  rw [if_pos hlast, hbyte, fileBlock_entry hbs (by omega), hentry]
  simp only [Nat.add_assoc]

/-- A block past the last indirect one is not read: the buffer keeps any byte it had. -/
theorem lt_of_indirectAgrees {inode : Inode}
    (h : ∀ buf, IndirectAgrees sb fs disk inode buf count) {k : ℕ}
    (hcount : 512 * k < count) : k < 2304 := by
  by_contra hlast
  have hbyte := h (fun _ => fileByte sb fs.bytes inode (512 * k) + 1) (512 * k) (by omega) hcount
  rw [if_neg (by omega)] at hbyte
  exact absurd hbyte (by simp)

end Places

section Opening

variable {sb : Superblock} {fs : File} {disk filename : Memory} {i count : ℕ}
  {tab : Fin FILE_DESCRIPTOR_TAB_SIZE → FileOpen}

/-- A file among the first eight inodes is opened if a descriptor is free. -/
theorem fileOpen_of_live (hw : WellFormed sb fs) (hbs : sb.blockSize = 512)
    (hdisk : DiskHolds disk fs) (hi8 : i < 8) (hi : Live sb fs.bytes i)
    (hname : (inodeAt sb fs.bytes i).shownName = CStrings.cut 31 filename)
    (hfree : ∃ fd, (tab fd).status = 0) :
    ∃ (fd : Fin FILE_DESCRIPTOR_TAB_SIZE) (k : Kernel),
      fileOpen (mounted disk tab) filename = .ok ((fd : ℕ), k) := by
  obtain ⟨slotsRead, hfind, -⟩ := inodeGetFromFilename_of_live hw hdisk
    (mounted_view hw.toConsistent hdisk tab) hbs hi8 hi hname
  have hslots : (mounted disk tab).inodeTable.slots = 124 := rfl
  obtain ⟨-, hstat⟩ := fileStat_of_found hfind (by omega)
  obtain ⟨fd, slot, hopen⟩ := fileOpen_of_fileStat hstat hfree
  exact ⟨fd, _, hopen⟩

/-- Once the file opens, agreement is that of its indirect blocks, for every buffer. -/
theorem readsAgree_iff_indirectAgrees {fd : ℤ} {k : Kernel} (hw : WellFormed sb fs)
    (hbs : sb.blockSize = 512) (hdisk : DiskHolds disk fs)
    (hopen : fileOpen (mounted disk tab) filename = .ok (fd, k)) (hfd : fd ≠ -1)
    (hfound : lookup filename (inodeTableOf sb fs.bytes) = some i)
    (hcount : count ≤ (inodeAt sb fs.bytes i).size.toNat) :
    ReadsAgree fs disk filename tab count ↔
      ∀ buf, IndirectAgrees sb fs disk (inodeAt sb fs.bytes i) buf count := by
  obtain ⟨i', hfound', hreads⟩ := fileRead_eq_fsRead_iff hw hbs hdisk hopen hfd
  rw [hfound] at hfound'
  cases hfound'
  constructor
  · intro h buf
    obtain ⟨ret, buf', dest', fs', hread, hfsRead, hsame⟩ := h fd k hopen hfd 0 buf buf buf
    obtain ⟨ret₂, buf₂, dest₂, fs₂, hread₂, hfsRead₂, hiff⟩ := hreads 0 buf buf buf count hcount
    rw [hread₂] at hread
    rw [hfsRead₂] at hfsRead
    cases hread
    cases hfsRead
    exact hiff.mp hsame
  · intro h fd' k' hopen' hfd' stale stale' buf dest
    rw [hopen] at hopen'
    cases hopen'
    obtain ⟨ret, buf', dest', fs', hread, hfsRead, hiff⟩ :=
      hreads stale stale' buf dest count hcount
    exact ⟨ret, buf', dest', fs', hread, hfsRead, hiff.mpr (h buf)⟩

end Opening

section Contents

variable {sb : Superblock} {fs fs' : File} {disk disk' filename : Memory} {i count : ℕ}
  {tab : Fin FILE_DESCRIPTOR_TAB_SIZE → FileOpen}

theorem DiskHolds.withByte (h : DiskHolds disk fs) {a : ℕ} (b : Byte) (ha : a < fs.size) :
    DiskHolds (Function.update disk a b) (FileContents.withByte fs a b ha) := by
  intro x hx
  change Function.update disk a b x = Function.update fs.bytes a b x
  by_cases hxa : x = a
  · rw [hxa, Function.update_self, Function.update_self]
  · rw [Function.update_of_ne hxa, Function.update_of_ne hxa]
    exact h x hx

/-- The sector read for a block that agrees with the file for all contents is the one the
entry names: another one would keep its byte when the byte of the file is replaced. -/
theorem entry_of_indirectAgrees (hw : WellFormed sb fs) (hbs : sb.blockSize = 512)
    (hdisk : DiskHolds disk fs) (hi : Live sb fs.bytes i)
    (hcount : count ≤ (inodeAt sb fs.bytes i).size.toNat)
    (hagrees : ∀ fs' disk', OtherContents sb fs fs' i → DiskHolds disk' fs' →
      ∀ buf, IndirectAgrees sb fs' disk' (inodeAt sb fs.bytes i) buf count)
    {k : ℕ} (hk : 4 ≤ k) (hreached : 512 * k < count) (hlast : k < 2304) :
    entryAt sb fs.bytes (inodeAt sb fs.bytes i) ((k - 4) / 256) ((k - 4) % 256) =
      indirectAt (inodeAt sb fs.bytes i) ((k - 4) / 256) + 2 * ((k - 4) % 256) + 1 := by
  have hc := hw.toConsistent
  have hl := hc.layout
  have hdiv : 512 * k / 512 = k := by omega
  have hmod : 512 * k % 512 = 0 := by omega
  by_contra hother
  rw [← fileBlock_entry hbs hk] at hother
  obtain ⟨hin, hbyte⟩ := fileByte_disk hc hbs hdisk hi (512 * k)
  rw [hdiv, hmod] at hin hbyte
  generalize ha : 512 * (sb.datablocksStart +
    fileBlock sb fs.bytes (inodeAt sb fs.bytes i) k) + 0 = a at hin hbyte
  have hstores : Stores sb fs.bytes (inodeAt sb fs.bytes i) a := by
    refine ⟨k, (lt_blocksFor_iff (by omega) k _).mpr ?_, ?_⟩
    · rw [hbs]
      omega
    · rw [hbs]
      omega
  have hsame := withByte_otherContents (disk a + 1) hin hstores
  have hdisk' := DiskHolds.withByte hdisk (disk a + 1) hin
  have hblock : fileBlock sb (withByte fs a (disk a + 1) hin).bytes (inodeAt sb fs.bytes i) k =
      fileBlock sb fs.bytes (inodeAt sb fs.bytes i) k := by
    rw [fileBlock_eq_pointer, fileBlock_eq_pointer, hsame.pointer hc hi hi]
  obtain ⟨-, hbyte'⟩ := fileByte_disk (hsame.wellFormed hw hi).toConsistent hbs hdisk'
    ((hsame.live_iff hl i).mpr hi) (512 * k)
  rw [hsame.inode hl hi.1, hdiv, hmod, hblock, ha, Function.update_self] at hbyte'
  -- the sector that is read keeps its byte, and agrees with the file before and after
  have hread := hagrees fs disk (OtherContents.refl sb fs i) hdisk (fun _ => 0) (512 * k)
    (by omega) hreached
  have hread' := hagrees _ _ hsame hdisk' (fun _ => 0) (512 * k) (by omega) hreached
  rw [hdiv, hmod, if_pos hlast, hbyte] at hread
  rw [hdiv, hmod, if_pos hlast, hbyte', Function.update_of_ne (by omega), hread] at hread'
  exact absurd hread' (by simp)

/-- The file opens whatever it contains, and agreement is that of its indirect blocks. -/
theorem OtherContents.agrees_iff (h : OtherContents sb fs fs' i) (hw : WellFormed sb fs)
    (hbs : sb.blockSize = 512) (hdisk' : DiskHolds disk' fs')
    (hfound : lookup filename (inodeTableOf sb fs.bytes) = some i) (hi8 : i < 8)
    (hfree : ∃ fd, (tab fd).status = 0)
    (hcount : count ≤ (inodeAt sb fs.bytes i).size.toNat) :
    ReadsAgree fs' disk' filename tab count ↔
      ∀ buf, IndirectAgrees sb fs' disk' (inodeAt sb fs.bytes i) buf count := by
  obtain ⟨hi, hname⟩ := lookup_live hfound
  have hw' := h.wellFormed hw hi
  have hi' := (h.live_iff hw.layout i).mpr hi
  rw [← h.inode hw.layout hi.1] at hname hcount ⊢
  obtain ⟨fd, k, hopen⟩ := fileOpen_of_live hw' hbs hdisk' hi8 hi' hname hfree
  exact readsAgree_iff_indirectAgrees hw' hbs hdisk' hopen (by omega)
    (lookup_of_live hw'.names hi' hname) hcount

/-- Entries that follow their indirect block do so whatever the file contains. -/
theorem BlocksFollow.indirectAgrees_other
    (h : BlocksFollow sb fs.bytes (inodeAt sb fs.bytes i) count)
    (hsame : OtherContents sb fs fs' i) (hw : WellFormed sb fs) (hbs : sb.blockSize = 512)
    (hdisk' : DiskHolds disk' fs') (hi : Live sb fs.bytes i) (buf : Memory) :
    IndirectAgrees sb fs' disk' (inodeAt sb fs.bytes i) buf count := by
  have hfollow := h.congr (hsame.pointer hw.toConsistent hi hi)
  rw [← hsame.inode hw.layout hi.1] at hfollow ⊢
  exact hfollow.indirectAgrees (hsame.wellFormed hw hi).toConsistent hbs hdisk'
    ((hsame.live_iff hw.layout i).mpr hi) buf

end Contents

/-- The kernel reads a file as the tools do when the entries of its indirect blocks follow
them. These are all the files of which it does so whatever they contain; where an entry names
another block, the bytes may still coincide. -/
theorem readsAgree_iff {sb : Superblock} {fs : File} {disk filename : Memory}
    {tab : Fin FILE_DESCRIPTOR_TAB_SIZE → FileOpen} {fd : ℤ} {k : Kernel} (hw : WellFormed sb fs)
    (hbs : sb.blockSize = 512) (hdisk : DiskHolds disk fs)
    (hopen : fileOpen (mounted disk tab) filename = .ok (fd, k)) (hfd : fd ≠ -1) :
    ∃ i, lookup filename (inodeTableOf sb fs.bytes) = some i ∧
      ∀ count ≤ (inodeAt sb fs.bytes i).size.toNat,
        (BlocksFollow sb fs.bytes (inodeAt sb fs.bytes i) count →
          ReadsAgree fs disk filename tab count) ∧
        ((∀ fs' disk', OtherContents sb fs fs' i → DiskHolds disk' fs' →
            ReadsAgree fs' disk' filename tab count) ↔
          BlocksFollow sb fs.bytes (inodeAt sb fs.bytes i) count) := by
  obtain ⟨d, i, slotsRead, hfree, hfind, -, -⟩ := fileOpen_eq hopen hfd
  obtain ⟨hfound, hi8, -⟩ := lookup_of_kernel hw hbs hdisk
    (mounted_view hw.toConsistent hdisk tab) hfind
  obtain ⟨hi, -⟩ := lookup_live hfound
  refine ⟨i, hfound, fun count hcount => ?_⟩
  have hagrees : ∀ fs' disk', OtherContents sb fs fs' i → DiskHolds disk' fs' →
      (ReadsAgree fs' disk' filename tab count ↔
        ∀ buf, IndirectAgrees sb fs' disk' (inodeAt sb fs.bytes i) buf count) :=
    fun fs' disk' hsame hdisk' =>
      OtherContents.agrees_iff hsame hw hbs hdisk' hfound hi8 ⟨d, hfree⟩ hcount
  have hall : (∀ fs' disk', OtherContents sb fs fs' i → DiskHolds disk' fs' →
      ReadsAgree fs' disk' filename tab count) ↔
        BlocksFollow sb fs.bytes (inodeAt sb fs.bytes i) count := by
    constructor
    · intro h j hj hreached
      have hindirect : ∀ fs' disk', OtherContents sb fs fs' i → DiskHolds disk' fs' →
          ∀ buf, IndirectAgrees sb fs' disk' (inodeAt sb fs.bytes i) buf count :=
        fun fs' disk' hsame hdisk' => (hagrees fs' disk' hsame hdisk').mp (h fs' disk' hsame hdisk')
      have hlast := lt_of_indirectAgrees (hindirect fs disk (OtherContents.refl sb fs i) hdisk)
        hreached
      exact ⟨hlast, entry_of_indirectAgrees hw hbs hdisk hi hcount hindirect hj hreached hlast⟩
    · intro h fs' disk' hsame hdisk'
      exact (hagrees fs' disk' hsame hdisk').mpr
        (h.indirectAgrees_other hsame hw hbs hdisk' hi)
  exact ⟨fun h => hall.mpr h fs disk (OtherContents.refl sb fs i) hdisk, hall⟩

section Examples

/-- The fifth and last block of the large file follows its indirect block. -/
theorem readsAgree_large :
    (inodeAt smallSuperblock largeImage.bytes 1).size.toNat = 2560 ∧
    BlocksFollow smallSuperblock largeImage.bytes (inodeAt smallSuperblock largeImage.bytes 1)
      2560 ∧
    ReadsAgree largeImage largeImage.bytes (nameOf 97) closedTab 2560 := by
  obtain ⟨k, hopen⟩ := exists_of_map_fst (by decide +kernel :
    (fileOpen (mounted largeImage.bytes closedTab) (nameOf 97)).map Prod.fst = .ok 0)
  obtain ⟨i, hfound, hreads⟩ := readsAgree_iff largeImage_wellFormed rfl (fun _ _ => rfl) hopen
    (by decide)
  have hlookup : lookup (nameOf 97) (inodeTableOf smallSuperblock largeImage.bytes) = some 1 := by
    decide +kernel
  rw [hlookup] at hfound
  cases hfound
  have hsize : (inodeAt smallSuperblock largeImage.bytes 1).size.toNat = 2560 := by decide +kernel
  have hfollow : BlocksFollow smallSuperblock largeImage.bytes
      (inodeAt smallSuperblock largeImage.bytes 1) 2560 := by
    intro j hj hreached
    obtain rfl : j = 4 := by omega
    decide +kernel
  exact ⟨hsize, hfollow, (hreads 2560 (Nat.le_of_eq hsize.symm)).1 hfollow⟩

/-- A host file of n equal bytes. -/
def filledFile (b : Byte) (n : ℕ) : File where
  bytes := fun a => if a < n then b else 0
  size := n
  pos := 0
  eof := fun _ ha => if_neg (by omega)

/-- The small image with a file `a` of six blocks, which fills it. -/
def fullImage : File :=
  imageOf (addFile (fun _ => 0) (filledFile 1 3072) (nameOf 97) 3072 (emptyImage smallSuperblock))

theorem fullImage_wellFormed : WellFormed smallSuperblock fullImage := by
  have hadd : addFile (fun _ => 0) (filledFile 1 3072) (nameOf 97) 3072
      (emptyImage smallSuperblock) = .ok (.added, fullImage) :=
    eq_of_succeeded (by decide +kernel)
  obtain ⟨hnone, hsize, i, data, tables, hadded⟩ :=
    added_of_addFile smallImage_wellFormed.toConsistent (by omega) hadd
  exact hadded.wellFormed smallImage_wellFormed hsize (by omega) hnone

/-- The sixth block, data block 7, is the second one listed in the indirect block 5;
the kernel reads data block 8 for it. -/
theorem fileRead_full : WellFormed smallSuperblock fullImage ∧ ∃ k ret buf' dest' fs',
    fileOpen (mounted fullImage.bytes closedTab) (nameOf 97) = .ok (0, k) ∧
    (inodeAt smallSuperblock fullImage.bytes 1).size.toNat = 3072 ∧
    fileRead k fullImage.bytes 0 0 (fun _ => 0) 3072 = .ok (ret, buf') ∧
    fsRead (fun _ => 0) (nameOf 97) 0 3072 (fun _ => 0) fullImage = .ok (.done, dest', fs') ∧
    buf' 2560 ≠ dest' 2560 := by
  have hfound : lookup (nameOf 97) (inodeTableOf smallSuperblock fullImage.bytes) = some 1 := by
    decide +kernel
  have hsize : (inodeAt smallSuperblock fullImage.bytes 1).size.toNat = 3072 := by decide +kernel
  have hbyte : fileByte smallSuperblock fullImage.bytes (inodeAt smallSuperblock fullImage.bytes 1)
      (0 + 2560) = 1 := by
    decide +kernel
  have hkernel : (fileOpen (mounted fullImage.bytes closedTab) (nameOf 97) >>= fun r =>
      (fileRead r.2 fullImage.bytes 0 0 (fun _ => 0) 3072).map fun r => (r.1, r.2 2560)) =
      .ok (3072, 0) := by
    decide +kernel
  obtain ⟨k, hopen⟩ := exists_of_map_fst (by decide +kernel :
    (fileOpen (mounted fullImage.bytes closedTab) (nameOf 97)).map Prod.fst = .ok 0)
  obtain ⟨hlive, -⟩ := lookup_live hfound
  obtain ⟨p, hfsRead⟩ := fsRead_spec fullImage_wellFormed.toConsistent hfound
    (fullImage_wellFormed.sizes 1 hlive) (fun _ => 0) 0 3072 (fun _ => 0) (by decide)
    (by rw [hsize])
  rw [hopen, ok_bind] at hkernel
  refine ⟨fullImage_wellFormed, k, ?_⟩
  cases hread : fileRead k fullImage.bytes 0 0 (fun _ => 0) 3072 with
  | error e =>
    rw [hread] at hkernel
    cases hkernel
  | ok r =>
    rw [hread] at hkernel
    have hzero : r.2 2560 = 0 := congrArg Prod.snd (Except.ok.inj hkernel)
    refine ⟨r.1, r.2, _, _, hopen, hsize, rfl, hfsRead, ?_⟩
    rw [hzero]
    simp only [show 2560 < 3072 by decide, if_true, hbyte]
    decide

end Examples

end RathalOS.IndirectReads
