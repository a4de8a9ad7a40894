import RathalOS.Mounting
import RathalOS.ReadBack

/-!
Reading a file in the kernel. The loop of file_read copies one sector after
another; the sector of a block listed in an indirect block is computed from the
number of the indirect block and twice the position of the entry, and the
entry itself is not read. The bytes agree with those the tools read wherever
that sector happens to hold the same bytes as the block of the file.
-/
namespace RathalOS.KernelReads

open ByteMemory ByteFile Blocks Bitmaps CStrings Superblocks Inodes FileAccess Images
open AddFile EmptyImages AddedFiles ReadBack KernelFiles Mounting

/-- The sector file_read reads for a block of a file, if it reads one. -/
def kernelSector (dataStart : ℤ) (inode : Inode) (block : ℕ) : Option ℤ :=
  if block < 4 then some (dataStart + directAt inode block)
  else if block < 2304 then
    some (dataStart + (indirectAt inode ((block - 4) / 256) + 2 * ((block - 4) % 256) : ℕ) + 1)
  else none

/-- The byte file_read leaves at a position of the buffer. -/
def kernelByte (disk : Memory) (dataStart : ℤ) (inode : Inode) (buf : Memory) (x : ℕ) : Byte :=
  match kernelSector dataStart inode (x / 512) with
  | some sector => sectorData disk sector (x % 512)
  | none => buf x

/-- What adress_in_indirect_block is after the loop, if it was set. -/
def lastAdress (count : ℕ) : Option ℕ :=
  if count < 2048 then none else some (2 * ((min (count / 512) 2303 - 4) % 256))

/-- The number of the data block that file_read reads after the loop. -/
def lastBlock (stale : ℕ) (inode : Inode) (count : ℕ) : ℕ :=
  directAt inode (min (count / 512) 3) + (lastAdress count).getD stale

/-- The byte at a position of the buffer after file_read. -/
def leftByte (disk : Memory) (stale : ℕ) (dataStart : ℤ) (inode : Inode) (buf : Memory)
    (count x : ℕ) : Byte :=
  if x < 512 * (count / 512 + 1) then kernelByte disk dataStart inode buf x
  else if x < 512 * (count / 512 + 2) then
    sectorData disk (dataStart + lastBlock stale inode count) (x - 512 * (count / 512 + 1))
  else buf x

section Loop

variable (disk : Memory) (dataStart : ℤ) (inode : Inode)

theorem accessBlock_frame (s : ReadState) :
    (accessBlock disk dataStart inode s).block = s.block ∧
      (accessBlock disk dataStart inode s).moved = s.moved := by
  simp only [accessBlock]
  split
  · exact ⟨rfl, rfl⟩
  · split <;> exact ⟨rfl, rfl⟩

@[simp] theorem readBlock_block (s : ReadState) :
    (readBlock disk dataStart inode s).block = s.block + 1 :=
  congrArg (fun b => b + 1) (accessBlock_frame disk dataStart inode s).1

@[simp] theorem readBlock_moved (s : ReadState) :
    (readBlock disk dataStart inode s).moved = s.moved + 512 :=
  congrArg (fun m => m + 512) (accessBlock_frame disk dataStart inode s).2

theorem readBlock_buf (s : ReadState) :
    (readBlock disk dataStart inode s).buf =
      match kernelSector dataStart inode s.block with
      | some sector => ideReadSector disk sector s.buf s.moved
      | none => s.buf := by
  change (accessBlock disk dataStart inode s).buf = _
  simp only [accessBlock, kernelSector]
  by_cases hdirect : s.block < 4
  · rw [dif_pos hdirect, if_pos hdirect, directAt, dif_pos hdirect]
  · rw [dif_neg hdirect, if_neg hdirect]
    by_cases hindirect : s.block < 2304
    · have hindex : (s.block - 4) / 256 < 9 := by omega
      rw [dif_pos (by exact hindirect), if_pos hindirect, indirectAt, dif_pos hindex]
      rfl
    · rw [dif_neg (by exact hindirect), if_neg hindirect]

/-- A run of the loop fills one sector of the buffer for each block. -/
theorem readBlocks_spec (n : ℕ) (s : ReadState) (hmoved : s.moved = 512 * s.block) :
    (readBlocks disk dataStart inode n s).moved = 512 * (s.block + n) ∧
      ∀ x, (readBlocks disk dataStart inode n s).buf x =
        if 512 * s.block ≤ x ∧ x < 512 * (s.block + n) then
          kernelByte disk dataStart inode s.buf x
        else s.buf x := by
  have hsize : SECTOR_SIZE = 512 := rfl
  induction n generalizing s with
  | zero =>
    refine ⟨hmoved, fun x => ?_⟩
    rw [if_neg (by omega)]
    rfl
  | succ n ih =>
    obtain ⟨hmoved', hbuf⟩ := ih (readBlock disk dataStart inode s) (by
      rw [readBlock_moved, readBlock_block, hmoved]
      ring)
    rw [readBlock_block] at hmoved' hbuf
    refine ⟨by rw [readBlocks, hmoved']; ring, fun x => ?_⟩
    rw [readBlocks, hbuf, readBlock_buf, hmoved]
    -- the block just read, and the blocks after it, which it leaves alone
    by_cases hhere : x / 512 = s.block
    · rw [if_neg (by omega), if_pos (by omega), kernelByte, hhere]
      cases kernelSector dataStart inode s.block with
      | none => rfl
      | some sector =>
        simp only [ideReadSector]
        rw [store_inside _ _ (by omega) (by omega), show x - 512 * s.block = x % 512 by omega]
    · have hsame : (match kernelSector dataStart inode s.block with
          | some sector => ideReadSector disk sector s.buf (512 * s.block)
          | none => s.buf) x = s.buf x := by
        cases kernelSector dataStart inode s.block with
        | none => rfl
        | some sector => exact ideReadSector_outside _ _ _ (by omega)
      by_cases hlater : 512 * (s.block + 1) ≤ x ∧ x < 512 * (s.block + 1 + n)
      · rw [if_pos hlater, if_pos (by omega)]
        simp only [kernelByte]
        rw [hsame]
      · rw [if_neg hlater, if_neg (by omega), hsame]

theorem readBlocks_concat (n : ℕ) (s : ReadState) :
    readBlocks disk dataStart inode (n + 1) s =
      readBlock disk dataStart inode (readBlocks disk dataStart inode n s) := by
  induction n generalizing s with
  | zero => rfl
  | succ n ih => exact ih _

/-- The two variables after an access to a block. -/
theorem accessBlock_variables (s : ReadState) :
    (accessBlock disk dataStart inode s).dataBlock =
        (if s.block < 4 then some (directAt inode s.block) else s.dataBlock) ∧
      (accessBlock disk dataStart inode s).adressInIndirectBlock =
        if 4 ≤ s.block ∧ s.block < 2304 then some (2 * ((s.block - 4) % 256))
        else s.adressInIndirectBlock := by
  simp only [accessBlock]
  by_cases hdirect : s.block < 4
  · rw [dif_pos hdirect, if_pos hdirect, if_neg (by omega), directAt, dif_pos hdirect]
    exact ⟨rfl, rfl⟩
  · rw [dif_neg hdirect, if_neg hdirect]
    by_cases hindirect : s.block < 2304
    · rw [dif_pos (by exact hindirect), if_pos ⟨by omega, hindirect⟩]
      exact ⟨rfl, rfl⟩
    · rw [dif_neg (by exact hindirect), if_neg (by omega)]
      exact ⟨rfl, rfl⟩

/-- Blocks 0 to n have been read. The direct pointers are the first four of them, and the
last indirect block ends before block 2304. -/
theorem readBlocks_variables (buf : Memory) (n : ℕ) :
    (readBlocks disk dataStart inode (n + 1) ⟨0, none, none, buf, 0⟩).block = n + 1 ∧
      (readBlocks disk dataStart inode (n + 1) ⟨0, none, none, buf, 0⟩).dataBlock =
        some (directAt inode (min n 3)) ∧
      (readBlocks disk dataStart inode (n + 1) ⟨0, none, none, buf, 0⟩).adressInIndirectBlock =
        if n < 4 then none else some (2 * ((min n 2303 - 4) % 256)) := by
  induction n with
  | zero =>
    obtain ⟨hdata, hadress⟩ := accessBlock_variables disk dataStart inode ⟨0, none, none, buf, 0⟩
    exact ⟨readBlock_block _ _ _ _, hdata, hadress⟩
  | succ n ih =>
    obtain ⟨hblock, hdata, hadress⟩ := ih
    rw [readBlocks_concat]
    generalize readBlocks disk dataStart inode (n + 1) ⟨0, none, none, buf, 0⟩ = s at *
    obtain ⟨hdata', hadress'⟩ := accessBlock_variables disk dataStart inode s
    rw [hblock, hdata] at hdata'
    rw [hblock, hadress] at hadress'
    refine ⟨by rw [readBlock_block, hblock], hdata'.trans ?_, hadress'.trans ?_⟩
    · by_cases hdirect : n + 1 < 4
      · rw [if_pos hdirect, Nat.min_eq_left (by omega)]
      · rw [if_neg hdirect, Nat.min_eq_right (by omega), Nat.min_eq_right (by omega)]
    · by_cases hdirect : n + 1 < 4
      · rw [if_neg (by omega), if_pos (by omega), if_pos hdirect]
      · rw [if_neg hdirect]
        by_cases hlast : n + 1 < 2304
        · rw [if_pos ⟨by omega, hlast⟩, Nat.min_eq_left (by omega)]
        · rw [if_neg (by omega), if_neg (by omega), Nat.min_eq_right (by omega),
            Nat.min_eq_right (by omega)]

end Loop

/-- A position behind the last sector keeps its byte. -/
theorem leftByte_far (disk : Memory) (stale : ℕ) (dataStart : ℤ) (inode : Inode) (buf : Memory)
    {count x : ℕ} (hx : 512 * (count / 512 + 2) ≤ x) :
    leftByte disk stale dataStart inode buf count x = buf x := by
  rw [leftByte, if_neg (by omega), if_neg (by omega)]

section Reading

variable {k : Kernel} {fd : Fin FILE_DESCRIPTOR_TAB_SIZE} {slot : ℕ}

/-- What file_read returns and leaves in all of the buffer. -/
theorem fileRead_left (hopen : (k.fileDescriptorTab fd).status ≠ 0)
    (hinode : (k.fileDescriptorTab fd).inode = some slot) (hslot : slot < k.inodeTable.slots)
    (disk : Memory) (stale : ℕ) (buf : Memory) (count : ℕ) :
    fileRead k disk stale fd buf count = .ok (intOfUint count,
      leftByte disk stale (intOfUint k.superblock.datablocksStart) (k.inodeTable.inode slot) buf
        count) := by
  have hsize : SECTOR_SIZE = 512 := rfl
  have hget : inodeGet k.inodeTable slot = .ok (k.inodeTable.inode slot) := if_pos hslot
  let dataStart := intOfUint k.superblock.datablocksStart
  let inode := k.inodeTable.inode slot
  let s := readBlocks disk dataStart inode (count / 512 + 1) ⟨0, none, none, buf, 0⟩
  obtain ⟨-, hdata, hadress⟩ := readBlocks_variables disk dataStart inode buf (count / 512)
  obtain ⟨hmoved, hbuf⟩ :=
    readBlocks_spec disk dataStart inode (count / 512 + 1) ⟨0, none, none, buf, 0⟩ rfl
  have hmoved' : s.moved = 512 * (count / 512 + 1) := by
    rw [← Nat.zero_add (count / 512 + 1)]
    exact hmoved
  have hlast : s.dataBlock.getD stale + s.adressInIndirectBlock.getD stale =
      lastBlock stale inode count := by
    have hadress' : s.adressInIndirectBlock = lastAdress count := by
      rw [lastAdress]
      exact hadress.trans (if_congr (by omega) rfl rfl)
    rw [hadress', lastBlock]
    exact congrArg (fun dataBlock : Option ℕ => dataBlock.getD stale + _) hdata
  simp only [fileRead, k.descriptor_val fd, ok_bind, if_neg hopen, hinode, hget]
  refine congrArg Except.ok (Prod.ext rfl (funext fun x => ?_))
  change ideReadSector disk (dataStart + (s.dataBlock.getD stale +
    s.adressInIndirectBlock.getD stale : ℕ)) s.buf s.moved x =
      leftByte disk stale dataStart inode buf count x
  -- the access after the loop goes behind the last block
  rw [hlast, hmoved', leftByte]
  by_cases hloop : x < 512 * (count / 512 + 1)
  · rw [if_pos hloop, ideReadSector_outside _ _ _ (Or.inl hloop)]
    exact (hbuf x).trans (if_pos (show 512 * 0 ≤ x ∧ x < 512 * (0 + (count / 512 + 1)) by omega))
  · rw [if_neg hloop]
    by_cases hin : x < 512 * (count / 512 + 2)
    · rw [if_pos hin, ideReadSector, store_inside _ _ (by omega) (by omega)]
    · rw [if_neg hin, ideReadSector_outside _ _ _ (Or.inr (by omega))]
      exact (hbuf x).trans
        (if_neg (show ¬ (512 * 0 ≤ x ∧ x < 512 * (0 + (count / 512 + 1))) by omega))

/-- What file_read returns and leaves in the buffer. -/
theorem fileRead_spec (hopen : (k.fileDescriptorTab fd).status ≠ 0)
    (hinode : (k.fileDescriptorTab fd).inode = some slot) (hslot : slot < k.inodeTable.slots)
    (disk : Memory) (stale : ℕ) (buf : Memory) (count : ℕ) :
    ∃ buf', fileRead k disk stale fd buf count = .ok (intOfUint count, buf') ∧
      ∀ x < count, buf' x = kernelByte disk (intOfUint k.superblock.datablocksStart)
        (k.inodeTable.inode slot) buf x :=
  ⟨_, fileRead_left hopen hinode hslot disk stale buf count, fun _ _ => if_pos (by omega)⟩

end Reading

/-- From the fifth block of a file on, what the kernel takes for the block holds the
same bytes: the sector 2j + 1 after the indirect block, for its entry j, or the
buffer itself past block 2304. -/
def IndirectAgrees (sb : Superblock) (fs : File) (disk : Memory) (inode : Inode) (buf : Memory)
    (count : ℕ) : Prop :=
  ∀ x, 4 * 512 ≤ x → x < count →
    (if x / 512 < 2304 then
      disk (512 * (sb.datablocksStart + indirectAt inode ((x / 512 - 4) / 256) +
        2 * ((x / 512 - 4) % 256) + 1) + x % 512)
    else buf x) = fileByte sb fs.bytes inode x

section Agreement

variable {sb : Superblock} {fs : File} {disk : Memory} {inode : Inode}

theorem sectorData_natCast (disk : Memory) {sector : ℕ} (h : sector < 2 ^ 28) (t : ℕ) :
    sectorData disk sector t = disk (512 * sector + t) := by
  have hnumber : ((sector : ℤ) % 2 ^ 28).toNat = sector := by omega
  rw [sectorData, advance_apply, hnumber]

/-- A direct block is read where the tools read it. -/
theorem kernelByte_direct (hc : Consistent sb fs) (hbs : sb.blockSize = 512)
    (hdisk : DiskHolds disk fs) {i : ℕ} (hi : Live sb fs.bytes i) (buf : Memory) {x : ℕ}
    (hx : x < 4 * 512) :
    kernelByte disk sb.datablocksStart (inodeAt sb fs.bytes i) buf x =
      fileByte sb fs.bytes (inodeAt sb fs.bytes i) x := by
  have hdirect : x / 512 < 4 := by omega
  have hrange : directAt (inodeAt sb fs.bytes i) (x / 512) < sb.datablockCount :=
    hc.blocks.inRange i (.direct (x / 512)) hi
  obtain ⟨-, hend, -⟩ := hc.layout.regions.block_range hrange
  have hwithin := hc.layout.within
  have hcovers := hc.covers
  rw [hbs] at hend hwithin hcovers
  rw [kernelByte, kernelSector, if_pos hdirect]
  simp only [← Nat.cast_add]
  rw [sectorData_natCast _ (by omega), hdisk _ (by omega), fileByte, fileBlock, hbs,
    if_pos hdirect, blockData, advance_apply, hbs]

/-- A later block is read where its number and its place put it. -/
theorem kernelByte_indirect (hl : Layout sb) (inode : Inode) (buf : Memory) {x : ℕ}
    (hx : 4 * 512 ≤ x) :
    kernelByte disk sb.datablocksStart inode buf x =
      if x / 512 < 2304 then
        disk (512 * (sb.datablocksStart + indirectAt inode ((x / 512 - 4) / 256) +
          2 * ((x / 512 - 4) % 256) + 1) + x % 512)
      else buf x := by
  obtain ⟨-, hstart⟩ := starts_lt hl
  have hptr := indirectAt_lt inode ((x / 512 - 4) / 256)
  rw [kernelByte, kernelSector, if_neg (by omega)]
  by_cases hlast : x / 512 < 2304
  · rw [if_pos hlast, if_pos hlast]
    have hsector : (sb.datablocksStart : ℤ) +
        (indirectAt inode ((x / 512 - 4) / 256) + 2 * ((x / 512 - 4) % 256) : ℕ) + 1 =
        (sb.datablocksStart + indirectAt inode ((x / 512 - 4) / 256) +
          2 * ((x / 512 - 4) % 256) + 1 : ℕ) := by
      push_cast
      ring
    simp only [hsector]
    exact sectorData_natCast disk (by omega) _
  · rw [if_neg hlast, if_neg hlast]

/-- The kernel leaves the bytes of the file exactly when its indirect blocks agree. -/
theorem kernelByte_iff (hc : Consistent sb fs) (hbs : sb.blockSize = 512)
    (hdisk : DiskHolds disk fs) {i : ℕ} (hi : Live sb fs.bytes i) (buf : Memory) (count : ℕ) :
    (∀ x < count, kernelByte disk sb.datablocksStart (inodeAt sb fs.bytes i) buf x =
      fileByte sb fs.bytes (inodeAt sb fs.bytes i) x) ↔
    IndirectAgrees sb fs disk (inodeAt sb fs.bytes i) buf count := by
  constructor
  · intro h x hx hcount
    rw [← kernelByte_indirect hc.layout _ buf hx]
    exact h x hcount
  · intro h x hcount
    by_cases hx : x < 4 * 512
    · exact kernelByte_direct hc hbs hdisk hi buf hx
    · rw [kernelByte_indirect hc.layout _ buf (by omega)]
      exact h x (by omega) hcount

end Agreement

/-- The slot a mounted kernel found is the inode the tools find. -/
theorem lookup_of_kernel {sb : Superblock} {fs : File} {disk filename : Memory} {k : Kernel}
    {slot : ℕ} {slotsRead : List ℕ} (hw : WellFormed sb fs) (hbs : sb.blockSize = 512)
    (hdisk : DiskHolds disk fs) (hview : View sb disk k)
    (h : inodeGetFromFilename k.inodeTable filename = .ok (some slot, slotsRead)) :
    lookup filename (inodeTableOf sb fs.bytes) = some slot ∧ slot < 8 ∧
      k.inodeTable.inode slot = inodeAt sb fs.bytes slot := by
  obtain ⟨hlt, -, haccept⟩ := findInode_some h
  rw [hview.inodeCount] at hlt
  have hslot8 : slot < 8 := by
    by_contra hover
    have hnumber := ((matchesName_iff _ _).mp haccept).1
    rw [hview.inode_zero (by omega)] at hnumber
    exact hnumber rfl
  obtain ⟨hlive, hname⟩ :=
    (hview.accepts_iff hw.toConsistent hdisk hbs (by omega) hslot8 filename).mp haccept
  exact ⟨lookup_of_live hw.names hlive hname, hslot8,
    hview.inode_eq hw.toConsistent hdisk hbs (by omega) hslot8⟩

/-- The first read on a descriptor just opened, next to fs_read on the same range. -/
theorem fileRead_eq_fsRead_iff {sb : Superblock} {fs : File} {disk filename : Memory}
    {tab : Fin FILE_DESCRIPTOR_TAB_SIZE → FileOpen} {fd : ℤ} {k : Kernel} (hw : WellFormed sb fs)
    (hbs : sb.blockSize = 512) (hdisk : DiskHolds disk fs)
    (hopen : fileOpen (mounted disk tab) filename = .ok (fd, k)) (hfd : fd ≠ -1) :
    ∃ i, lookup filename (inodeTableOf sb fs.bytes) = some i ∧
      ∀ (stale : ℕ) (stale' buf dest : Memory) (count : ℕ),
        count ≤ (inodeAt sb fs.bytes i).size.toNat →
        ∃ ret buf' dest' fs', fileRead k disk stale fd buf count = .ok (ret, buf') ∧
          fsRead stale' filename 0 count dest fs = .ok (.done, dest', fs') ∧
          ((∀ x < count, buf' x = dest' x) ↔
            IndirectAgrees sb fs disk (inodeAt sb fs.bytes i) buf count) := by
  have hview := mounted_view hw.toConsistent hdisk tab
  obtain ⟨fd, i, slotsRead, -, hfind, rfl, rfl⟩ := fileOpen_eq hopen hfd
  obtain ⟨hfound, hslot8, hinode⟩ := lookup_of_kernel hw hbs hdisk hview hfind
  have hslots : (mounted disk tab).inodeTable.slots = 124 := rfl
  have hslot : i < (mounted disk tab).inodeTable.slots := by omega
  obtain ⟨hi, -⟩ := lookup_live hfound
  refine ⟨i, hfound, fun stale stale' buf dest count hcount => ?_⟩
  have hsize := size_lt hw.layout (hw.sizes i hi)
  obtain ⟨-, hstart⟩ := starts_lt hw.layout
  let k := (mounted disk tab).setDescriptor fd ⟨some i, 1, 0⟩
  have hstatus : (k.fileDescriptorTab fd).status ≠ 0 := by simp [k]
  have hpointer : (k.fileDescriptorTab fd).inode = some i := by simp [k]
  obtain ⟨buf', hread, hbuf⟩ := fileRead_spec hstatus hpointer hslot disk stale buf count
  obtain ⟨p, hfsRead⟩ := fsRead_spec hw.toConsistent hfound (hw.sizes i hi) stale' 0 count dest
    (by omega) (by omega)
  refine ⟨_, buf', _, _, hread, hfsRead, ?_⟩
  rw [← kernelByte_iff hw.toConsistent hbs hdisk hi buf count]
  refine forall₂_congr fun x hx => ?_
  rw [hbuf x hx, setDescriptor_superblock, setDescriptor_inodeTable, hview.superblock, hinode,
    intOfUint_of_lt (by omega), if_pos hx, Nat.zero_add]

end RathalOS.KernelReads
