import RathalOS.FileAccess

/-!
The file system of the kernel, kernel/fs/fs.c. Three sectors of the disk are
copied into global_buffer, into which the superblock, the bits and the inodes
are pointers. A pointer to an inode is the slot of the table it refers to; the
slots that exist are those that lie inside the buffer. The buffer a caller
passes is a memory of its own.
-/
namespace RathalOS.KernelFiles

open ByteMemory Bitmaps CStrings Superblocks Inodes FileAccess

abbrev SECTOR_SIZE : ℕ := 512
abbrev GLOBAL_BUFFER_SIZE : ℕ := 10000
abbrev FILE_DESCRIPTOR_TAB_SIZE : ℕ := 50

/-- The bytes of a sector, of whose number the controller receives 28 bits. -/
def sectorData (disk : Memory) (sector : ℤ) : Memory :=
  advance disk (SECTOR_SIZE * (sector % 2 ^ 28).toNat)

/-- `ide_read_sector(sector, &dst[at])`. -/
def ideReadSector (disk : Memory) (sector : ℤ) (dst : Memory) (start : ℕ) : Memory :=
  store dst start SECTOR_SIZE (sectorData disk sector)

structure FileOpen where
  inode : Option ℕ
  status : Byte
  offset : ℕ

structure Kernel where
  globalBuffer : Memory
  inodeBitmapCount : ℕ
  inodeBitmapSize : ℕ
  inodeTableCount : ℕ
  inodeTableSize : ℕ
  fileDescriptorTab : Fin FILE_DESCRIPTOR_TAB_SIZE → FileOpen

namespace Kernel

/-- The static variables before the first call. -/
def initial : Kernel where
  globalBuffer := fun _ => 0
  inodeBitmapCount := 0
  inodeBitmapSize := 0
  inodeTableCount := 0
  inodeTableSize := 0
  fileDescriptorTab := fun _ => ⟨none, 0, 0⟩

def superblock (k : Kernel) : Superblock := Superblock.ofMemory k.globalBuffer

def inodeTable (k : Kernel) : InodeTable where
  inodeCount := k.inodeTableCount
  size := k.inodeTableSize
  inodes := advance k.globalBuffer (4 * SECTOR_SIZE)
  slots := (GLOBAL_BUFFER_SIZE - 4 * SECTOR_SIZE) / inodeSize

/-- `file_descriptor_tab[fd]` has to be one of its entries. -/
def descriptor (_k : Kernel) (fd : ℤ) : Except Fault (Fin FILE_DESCRIPTOR_TAB_SIZE) :=
  if h : 0 ≤ fd ∧ fd < FILE_DESCRIPTOR_TAB_SIZE then .ok ⟨fd.toNat, by omega⟩
  else .error .undefined

theorem descriptor_val (k : Kernel) (fd : Fin FILE_DESCRIPTOR_TAB_SIZE) :
    k.descriptor fd = .ok fd := by
  have hlt : (fd : ℤ) < FILE_DESCRIPTOR_TAB_SIZE := by
    have := fd.isLt
    omega
  rw [descriptor, dif_pos ⟨by omega, hlt⟩]
  rfl

def setDescriptor (k : Kernel) (fd : Fin FILE_DESCRIPTOR_TAB_SIZE) (entry : FileOpen) : Kernel :=
  { k with fileDescriptorTab := Function.update k.fileDescriptorTab fd entry }

end Kernel

def fileSuperblocInit (disk : Memory) (k : Kernel) : Kernel :=
  { k with globalBuffer := ideReadSector disk 0 k.globalBuffer 0 }

def fileInodeBitmapInit (disk : Memory) (k : Kernel) : Kernel :=
  let sb := k.superblock
  { k with
    globalBuffer := ideReadSector disk (intOfUint sb.inodeBitmapStart) k.globalBuffer SECTOR_SIZE
    inodeBitmapCount := sb.inodeCount
    inodeBitmapSize := uint (sb.inodeBitmapBlockCount * sb.blockSize) }

def inodeTableInit (disk : Memory) (k : Kernel) : Kernel :=
  let sb := k.superblock
  { k with
    globalBuffer := ideReadSector disk (intOfUint sb.inodeStart) k.globalBuffer (4 * SECTOR_SIZE)
    inodeTableCount := sb.inodeCount
    inodeTableSize := uint (sb.inodeCount * inodeSize) }

def fdescriptorTabInit (k : Kernel) : Kernel :=
  { k with fileDescriptorTab := fun _ => ⟨none, 0, 0⟩ }

def filesSystemInit (disk : Memory) (k : Kernel) : Kernel :=
  fdescriptorTabInit (inodeTableInit disk (fileInodeBitmapInit disk (fileSuperblocInit disk k)))

/-- The inode found and the slots read on the way. -/
def inodeGetFromFilename (itab : InodeTable) (filename : Memory) :
    Except Fault (Option ℕ × List ℕ) :=
  findInode itab (matchesName filename) 0 itab.inodeCount

def fileExists (k : Kernel) (filename : Memory) : Except Fault Bool := do
  let (found, _) ← inodeGetFromFilename k.inodeTable filename
  .ok found.isSome

/-- The loop over the descriptors that remain. -/
def openLoop (k : Kernel) (filename : Memory) :
    List (Fin FILE_DESCRIPTOR_TAB_SIZE) → Except Fault (ℤ × Kernel)
  | [] => .ok (-1, k)
  | i :: rest =>
    if (k.fileDescriptorTab i).status = 0 then do
      let (found, _) ← inodeGetFromFilename k.inodeTable filename
      .ok (i, k.setDescriptor i ⟨found, 1, 0⟩)
    else openLoop k filename rest

def fileOpen (k : Kernel) (filename : Memory) : Except Fault (ℤ × Kernel) := do
  let found ← fileExists k filename
  if found then openLoop k filename (List.finRange FILE_DESCRIPTOR_TAB_SIZE) else .ok (-1, k)

/-- The variables file_read changes: block, the two numbers the last access
uses, which are not initialised, and the buffer with how far buf was moved. -/
structure ReadState where
  block : ℕ
  dataBlock : Option ℕ
  adressInIndirectBlock : Option ℕ
  buf : Memory
  moved : ℕ

private theorem indirectBlock_lt {block : ℕ}
    (h : block < INODE_INDIRECT_PTR_CNT * (SECTOR_SIZE / 2)) :
    (block - INODE_DIRECT_PTR_CNT) / (SECTOR_SIZE / 2) < 9 := by
  change block < 2304 at h
  change (block - 4) / 256 < 9
  omega

/-- The access to one block of the file. A block past the last indirect one is not read. -/
def accessBlock (disk : Memory) (dataStart : ℤ) (inode : Inode) (s : ReadState) : ReadState :=
  let blockAdressesPerBlock := SECTOR_SIZE / 2
  if h : s.block < 4 then
    let dataBlock := (inode.directPtr ⟨s.block, h⟩).toNat
    { s with
      dataBlock := some dataBlock
      buf := ideReadSector disk (dataStart + dataBlock) s.buf s.moved }
  else if h : s.block < INODE_INDIRECT_PTR_CNT * blockAdressesPerBlock then
    let block := s.block - INODE_DIRECT_PTR_CNT
    let indirectBlock := block / blockAdressesPerBlock
    let adressBlock := (inode.indirectPtr ⟨indirectBlock, indirectBlock_lt h⟩).toNat
    let adressInIndirectBlock := 2 * (block % blockAdressesPerBlock)
    { s with
      adressInIndirectBlock := some adressInIndirectBlock
      buf := ideReadSector disk (dataStart + (adressBlock + adressInIndirectBlock : ℕ) + 1)
        s.buf s.moved }
  else s

/-- The body of the loop of file_read. -/
def readBlock (disk : Memory) (dataStart : ℤ) (inode : Inode) (s : ReadState) : ReadState :=
  let s := accessBlock disk dataStart inode s
  { s with block := s.block + 1, moved := s.moved + SECTOR_SIZE }

/-- The loop with n rounds left. -/
def readBlocks (disk : Memory) (dataStart : ℤ) (inode : Inode) : ℕ → ReadState → ReadState
  | 0, s => s
  | n + 1, s => readBlocks disk dataStart inode n (readBlock disk dataStart inode s)

/-- `file_read`, of which count is a uint and the result an int; `stale` is what
an uninitialised variable holds. The offset of the descriptor is not used. -/
def fileRead (k : Kernel) (disk : Memory) (stale : ℕ) (fd : ℤ) (buf : Memory) (count : ℕ) :
    Except Fault (ℤ × Memory) := do
  let i ← k.descriptor fd
  if (k.fileDescriptorTab i).status = 0 then .ok (-1, buf)
  else
    match (k.fileDescriptorTab i).inode with
    | none => .error .undefined
    | some slot => do
      let inode ← inodeGet k.inodeTable slot
      let dataStart := intOfUint k.superblock.datablocksStart
      let s := readBlocks disk dataStart inode (count / SECTOR_SIZE + 1) ⟨0, none, none, buf, 0⟩
      let last := s.dataBlock.getD stale + s.adressInIndirectBlock.getD stale
      .ok (intOfUint count, ideReadSector disk (dataStart + last) s.buf s.moved)

def fileSeek (k : Kernel) (fd : ℤ) (offset : ℕ) : Except Fault (ℤ × Kernel) := do
  let i ← k.descriptor fd
  if (k.fileDescriptorTab i).status = 1 then
    .ok (intOfUint offset, k.setDescriptor i { k.fileDescriptorTab i with offset := offset })
  else .ok (-1, k)

def fileClose (k : Kernel) (fd : ℤ) : Except Fault Kernel := do
  let i ← k.descriptor fd
  .ok (k.setDescriptor i { k.fileDescriptorTab i with status := 0 })

/-- `stat_t`. -/
structure Stat where
  size : ℤ
  inode : ℕ

/-- What file_stat stores, if it returns 1. -/
def fileStat (k : Kernel) (filename : Memory) : Except Fault (Option Stat) := do
  let found ← fileExists k filename
  if found then do
    let (found, _) ← inodeGetFromFilename k.inodeTable filename
    match found with
    | none => .error .undefined
    | some slot => do
      let inode ← inodeGet k.inodeTable slot
      .ok (some ⟨intOfUint inode.size.toNat, slot⟩)
  else .ok none

@[simp] theorem setDescriptor_inodeTable (k : Kernel) (fd : Fin FILE_DESCRIPTOR_TAB_SIZE)
    (entry : FileOpen) : (k.setDescriptor fd entry).inodeTable = k.inodeTable := rfl

@[simp] theorem setDescriptor_superblock (k : Kernel) (fd : Fin FILE_DESCRIPTOR_TAB_SIZE)
    (entry : FileOpen) : (k.setDescriptor fd entry).superblock = k.superblock := rfl

@[simp] theorem setDescriptor_self (k : Kernel) (fd : Fin FILE_DESCRIPTOR_TAB_SIZE)
    (entry : FileOpen) : (k.setDescriptor fd entry).fileDescriptorTab fd = entry :=
  Function.update_self _ _ _

theorem setDescriptor_other (k : Kernel) {fd i : Fin FILE_DESCRIPTOR_TAB_SIZE} (entry : FileOpen)
    (h : fd ≠ i) : (k.setDescriptor i entry).fileDescriptorTab fd = k.fileDescriptorTab fd :=
  Function.update_of_ne h _ _

theorem openLoop_eq {k k' : Kernel} {filename : Memory} {fd : ℤ}
    {rest : List (Fin FILE_DESCRIPTOR_TAB_SIZE)} (h : openLoop k filename rest = .ok (fd, k'))
    (hfd : fd ≠ -1) :
    ∃ i found slotsRead, (k.fileDescriptorTab i).status = 0 ∧
      inodeGetFromFilename k.inodeTable filename = .ok (found, slotsRead) ∧ fd = (i : ℕ) ∧
      k' = k.setDescriptor i ⟨found, 1, 0⟩ := by
  induction rest with
  | nil =>
    cases h
    exact absurd rfl hfd
  | cons i rest ih =>
    rw [openLoop] at h
    split at h
    · rename_i hfree
      obtain ⟨⟨found, slotsRead⟩, hfind, h⟩ := bind_eq_ok h
      cases h
      exact ⟨i, found, slotsRead, hfree, hfind, rfl, rfl⟩
    · exact ih h

/-- A file_open that succeeded took a free descriptor for the inode it found. -/
theorem fileOpen_eq {k k' : Kernel} {filename : Memory} {fd : ℤ}
    (h : fileOpen k filename = .ok (fd, k')) (hfd : fd ≠ -1) :
    ∃ i slot slotsRead, (k.fileDescriptorTab i).status = 0 ∧
      inodeGetFromFilename k.inodeTable filename = .ok (some slot, slotsRead) ∧ fd = (i : ℕ) ∧
      k' = k.setDescriptor i ⟨some slot, 1, 0⟩ := by
  unfold fileOpen at h
  obtain ⟨found, hexists, h⟩ := bind_eq_ok h
  cases found with
  | false =>
    cases h
    exact absurd rfl hfd
  | true =>
    obtain ⟨i, found, slotsRead, hfree, hfind, hi, hk⟩ := openLoop_eq h hfd
    rw [fileExists, hfind] at hexists
    cases found with
    | none => cases hexists
    | some slot => exact ⟨i, slot, slotsRead, hfree, hfind, hi, hk⟩

theorem openLoop_refused {k k' : Kernel} {filename : Memory}
    {rest : List (Fin FILE_DESCRIPTOR_TAB_SIZE)}
    (h : openLoop k filename rest = .ok (-1, k')) : k' = k := by
  induction rest with
  | nil =>
    cases h
    rfl
  | cons i rest ih =>
    rw [openLoop] at h
    split at h
    · obtain ⟨⟨found, slotsRead⟩, -, h⟩ := bind_eq_ok h
      have hfd : ((i : ℕ) : ℤ) = -1 := congrArg Prod.fst (Except.ok.inj h)
      omega
    · exact ih h

/-- A file_open that failed changed nothing. -/
theorem fileOpen_refused {k k' : Kernel} {filename : Memory}
    (h : fileOpen k filename = .ok (-1, k')) : k' = k := by
  unfold fileOpen at h
  obtain ⟨found, -, h⟩ := bind_eq_ok h
  split at h
  · exact openLoop_refused h
  · cases h
    rfl

section Opening

variable {k : Kernel} {filename : Memory}

/-- A lookup that file_stat has made. -/
theorem find_of_fileStat {stat : Stat} (h : fileStat k filename = .ok (some stat)) :
    ∃ slot slotsRead, inodeGetFromFilename k.inodeTable filename = .ok (some slot, slotsRead) ∧
      fileExists k filename = .ok true := by
  obtain ⟨found, hexists, h⟩ := bind_eq_ok h
  cases found with
  | false => cases h
  | true =>
    obtain ⟨⟨slot, slotsRead⟩, hfind, hexists'⟩ := bind_eq_ok hexists
    cases slot with
    | none => cases hexists'
    | some slot => exact ⟨slot, slotsRead, hfind, hexists⟩

/-- The loop takes the first descriptor whose status is 0. -/
theorem openLoop_find {slot : ℕ} {slotsRead : List ℕ}
    (hfind : inodeGetFromFilename k.inodeTable filename = .ok (some slot, slotsRead))
    (l : List (Fin FILE_DESCRIPTOR_TAB_SIZE)) :
    openLoop k filename l =
      match l.find? fun fd => decide ((k.fileDescriptorTab fd).status = 0) with
      | none => .ok (-1, k)
      | some fd => .ok ((fd : ℕ), k.setDescriptor fd ⟨some slot, 1, 0⟩) := by
  induction l with
  | nil => rfl
  | cons i rest ih =>
    rw [openLoop, List.find?_cons]
    by_cases hfree : (k.fileDescriptorTab i).status = 0
    · rw [if_pos hfree, hfind, ok_bind, decide_eq_true hfree]
    · rw [if_neg hfree, ih, decide_eq_false hfree]

/-- A file that file_stat finds is opened if a descriptor is free. -/
theorem fileOpen_of_fileStat {stat : Stat} (h : fileStat k filename = .ok (some stat))
    (hfree : ∃ fd, (k.fileDescriptorTab fd).status = 0) :
    ∃ (fd : Fin FILE_DESCRIPTOR_TAB_SIZE) (slot : ℕ),
      fileOpen k filename = .ok ((fd : ℕ), k.setDescriptor fd ⟨some slot, 1, 0⟩) := by
  obtain ⟨slot, slotsRead, hfind, hexists⟩ := find_of_fileStat h
  rw [fileOpen, hexists, ok_bind, if_pos rfl, openLoop_find hfind]
  cases hfirst : (List.finRange FILE_DESCRIPTOR_TAB_SIZE).find?
      fun fd => decide ((k.fileDescriptorTab fd).status = 0) with
  | none =>
    obtain ⟨fd, hfd⟩ := hfree
    exact absurd (decide_eq_true hfd) (List.find?_eq_none.mp hfirst fd (List.mem_finRange fd))
  | some fd => exact ⟨fd, slot, rfl⟩

/-- And is not opened if none is. -/
theorem fileOpen_of_used {stat : Stat} (h : fileStat k filename = .ok (some stat))
    (hused : ∀ fd, (k.fileDescriptorTab fd).status ≠ 0) :
    fileOpen k filename = .ok (-1, k) := by
  obtain ⟨slot, slotsRead, hfind, hexists⟩ := find_of_fileStat h
  have hnone : (List.finRange FILE_DESCRIPTOR_TAB_SIZE).find?
      (fun fd => decide ((k.fileDescriptorTab fd).status = 0)) = none :=
    List.find?_eq_none.mpr fun fd _ hfd => hused fd (of_decide_eq_true hfd)
  rw [fileOpen, hexists, ok_bind, if_pos rfl, openLoop_find hfind, hnone]

/-- Closing a descriptor that has just been set. -/
theorem fileClose_setDescriptor (k : Kernel) (fd : Fin FILE_DESCRIPTOR_TAB_SIZE)
    (entry : FileOpen) : fileClose (k.setDescriptor fd entry) fd =
      .ok (k.setDescriptor fd { entry with status := 0 }) := by
  simp only [fileClose, Kernel.descriptor_val, ok_bind, setDescriptor_self]
  simp only [Kernel.setDescriptor, Function.update_idem]

end Opening

end RathalOS.KernelFiles
